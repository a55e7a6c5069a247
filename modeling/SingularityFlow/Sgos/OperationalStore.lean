/-
# Operational stores

An operational store keeps a lineage of events and the state that they lead to.
The memory profile holds the lineage, its states and the last of them; the
filesystem profiles hold the events as files, one each, and replay them whenever
they are asked.  `transact`, `restore` and `rollback` are the ways to change a
store, each a definition over what was loaded.

Canonical JSON and its digests are a parameter (`Codec`): the digest of each record
that has one, and the sizes that are bounded.  The values are JSON values, which a
file gives back as they are; an `undefined` that a caller puts is none of them.
-/
import SingularityFlow.Lib.NumberText
import SingularityFlow.Errors
import Mathlib.Data.Finmap
import Mathlib.Data.List.Sort
import Mathlib.Data.Finset.Sort

namespace SingularityFlow

open Ecma

namespace Sgos

instance : Std.Antisymm LeUnits := ⟨fun _ _ => leUnits_antisymm⟩

/-! ## Records -/

def maximumEntries : Nat := 2000

def maximumEvents : Nat := 20000

def maximumBytes : Nat := 8 * 1024 * 1024

def maximumChanges : Nat := 128

/-- `Number.MAX_SAFE_INTEGER`. -/
def maximumInteger : Nat := 9007199254740991

/-- The profile of a store; the last two have their events in files. -/
inductive StoreProfile where
  | memoryReplay | filesystemReplay | filesystemLive
deriving DecidableEq

abbrev Entries (α : Type) := Finmap fun _ : Text => α

inductive Change (α : Type) where
  | put (key : Text) (value : α)
  | delete (key : Text)
deriving DecidableEq

def Change.key {α : Type} : Change α → Text
  | .put key _ => key
  | .delete key => key

inductive StoreOperation where
  | transact
  | rollback (revision : Nat)
deriving DecidableEq

/-- A state without its digest. -/
structure StateCore (α D : Type) where
  storeId : Text
  revision : Nat
  eventSha256 : Option D
  entriesSha256 : D
  entries : Entries α
deriving DecidableEq

structure StoreState (α D : Type) extends StateCore α D where
  stateSha256 : D
deriving DecidableEq

/-- An event without its digest. -/
structure EventCore (α D : Type) where
  storeId : Text
  revision : Nat
  priorEventSha256 : Option D
  beforeStateSha256 : D
  afterEntriesSha256 : D
  operation : StoreOperation
  changes : List (Change α)
deriving DecidableEq

structure StoreEvent (α D : Type) extends EventCore α D where
  eventSha256 : D
deriving DecidableEq

structure BackupCore (α D : Type) where
  profile : StoreProfile
  storeId : Text
  events : List (StoreEvent α D)
  head : StoreState α D
deriving DecidableEq

structure Backup (α D : Type) extends BackupCore α D where
  backupSha256 : D
deriving DecidableEq

structure RestorePlan (D : Type) where
  storeId : Text
  profile : StoreProfile
  fastForward : Bool
  beforeStateSha256 : D
  afterStateSha256 : D
  backupSha256 : D
deriving DecidableEq

structure RollbackPlan (D : Type) where
  storeId : Text
  profile : StoreProfile
  beforeRevision : Nat
  beforeStateSha256 : D
  targetRevision : Nat
  targetStateSha256 : D
deriving DecidableEq

/-- Canonical JSON: the digests of records, and the sizes that are bounded. -/
structure Codec (α D : Type) where
  entriesDigest : Entries α → D
  stateDigest : StateCore α D → D
  eventDigest : EventCore α D → D
  backupDigest : BackupCore α D → D
  restoreDigest : RestorePlan D → D
  rollbackDigest : RollbackPlan D → D
  valueBytes : α → Nat
  entriesBytes : Entries α → Nat
  eventBytes : StoreEvent α D → Nat
  backupBytes : Backup α D → Nat

/-! ## Refusals -/

def storeFailure (code message : String) : Failure := .singularityFlow (js message) (some (js code))

def corrupt (message : String) : Failure := storeFailure "SGOS_OPERATIONAL_STORE_CORRUPT" message

def overLimit (label : Text) : Failure :=
  .singularityFlow (label ++ js " exceeds the installed 8388608-byte ceiling.")
    (some (js "SGOS_OPERATIONAL_STORE_LIMIT"))

def invalidChange (message : Text) : Failure :=
  .singularityFlow message (some (js "SGOS_OPERATIONAL_STORE_INVALID"))

def changeLabel (index : Nat) : Text := js "changes[" ++ natText index ++ js "]"

section Codec

variable {α D : Type} [DecidableEq α] [DecidableEq D] (codec : Codec α D)

/-! ## Changes -/

def isKeyUnit (u : UInt16) : Bool :=
  (0x41 ≤ u.toNat && u.toNat ≤ 0x5A) || (0x61 ≤ u.toNat && u.toNat ≤ 0x7A) || isDigit u

/-- `KEY`. -/
def isKey : Text → Bool
  | [] => false
  | first :: rest =>
      isKeyUnit first && rest.length ≤ 255
        && rest.all fun u => isKeyUnit u || u ∈ ([0x2E, 0x5F, 0x3A, 0x2F, 0x2D] : List UInt16)

def normalizedChange (entries : Entries α) (index : Nat) (change : Change α) : Except Failure (Change α) :=
  if isKey change.key = false then
    .error (invalidChange (changeLabel index ++ js " has an invalid operation or key."))
  else
    match change with
    | .put _ value =>
        if maximumBytes < codec.valueBytes value then .error (overLimit (changeLabel index ++ js ".value"))
        else .ok change
    | .delete key =>
        if entries.lookup key = none then
          .error (.singularityFlow (js "Operational key '" ++ key ++ js "' does not exist.")
            (some (js "SGOS_OPERATIONAL_STORE_DELETE_MISSING")))
        else .ok change

/-- The first key that is changed twice in a row. -/
def repeatedKey : List (Change α) → Option Text
  | first :: second :: rest =>
      if first.key = second.key then some second.key else repeatedKey (second :: rest)
  | _ => none

def normalizedChanges (entries : Entries α) (changes : List (Change α)) : Except Failure (List (Change α)) :=
  if changes = [] ∨ maximumChanges < changes.length then
    .error (invalidChange (js "Operational transaction requires 1..128 changes."))
  else
    match sequence (changes.mapIdx (normalizedChange codec entries)) with
    | .error failure => .error failure
    | .ok changes =>
        let result := changes.insertionSort fun left right => LeUnits left.key right.key
        match repeatedKey result with
        | some key =>
            .error (invalidChange (js "Operational key '" ++ key ++ js "' is changed more than once."))
        | none => .ok result

def applyChange (entries : Entries α) : Change α → Entries α
  | .put key value => entries.insert key value
  | .delete key => entries.erase key

/-- `apply`. -/
def applyChanges (entries : Entries α) (changes : List (Change α)) : Except Failure (Entries α) :=
  let next := changes.foldl applyChange entries
  if maximumEntries < next.keys.card then
    .error (storeFailure "SGOS_OPERATIONAL_STORE_LIMIT"
      "Operational Store exceeds the installed 2000-entry ceiling.")
  else if maximumBytes < codec.entriesBytes next then .error (overLimit (js "Operational Store state"))
  else .ok next

/-! ## States and events -/

/-- `state`. -/
def stateOf (storeId : Text) (revision : Nat) (eventSha256 : Option D) (entries : Entries α) :
    StoreState α D :=
  let core : StateCore α D := ⟨storeId, revision, eventSha256, codec.entriesDigest entries, entries⟩
  { core with stateSha256 := codec.stateDigest core }

def firstState (storeId : Text) : StoreState α D := stateOf codec storeId 0 none ∅

/-- `event`. -/
def eventOf (before : StoreState α D) (operation : StoreOperation) (changes : List (Change α))
    (nextEntries : Entries α) : StoreEvent α D :=
  let core : EventCore α D := ⟨before.storeId, before.revision + 1, before.eventSha256, before.stateSha256,
    codec.entriesDigest nextEntries, operation, changes⟩
  { core with eventSha256 := codec.eventDigest core }

/-- The revision that an event claims to roll back to is a safe integer. -/
def StoreOperation.safe : StoreOperation → Bool
  | .transact => true
  | .rollback revision => revision ≤ maximumInteger

def validateEvent (value : StoreEvent α D) (before : StoreState α D) : Except Failure (List (Change α)) :=
  if value.storeId ≠ before.storeId ∨ value.revision ≠ before.revision + 1
      ∨ value.priorEventSha256 ≠ before.eventSha256 ∨ value.beforeStateSha256 ≠ before.stateSha256 then
    .error (corrupt "Operational event lineage is invalid.")
  else if codec.eventDigest value.toEventCore ≠ value.eventSha256 then
    .error (corrupt "Operational event digest is invalid.")
  else if value.operation.safe = false then .error (corrupt "Operational rollback event is invalid.")
  else normalizedChanges codec before.entries value.changes

/-- The state behind an event. -/
def advance (before : StoreState α D) (value : StoreEvent α D) : Except Failure (StoreState α D) :=
  match validateEvent codec value before with
  | .error failure => .error failure
  | .ok changes =>
      match applyChanges codec before.entries changes with
      | .error failure => .error failure
      | .ok entries =>
          if codec.entriesDigest entries ≠ value.afterEntriesSha256 then
            .error (corrupt "Operational event after-state digest is invalid.")
          else .ok (stateOf codec before.storeId value.revision (some value.eventSha256) entries)

/-- The states behind each of some events, from a state on. -/
def replayFrom (before : StoreState α D) : List (StoreEvent α D) → Except Failure (List (StoreState α D))
  | [] => .ok []
  | value :: events =>
      match advance codec before value with
      | .error failure => .error failure
      | .ok next =>
          match replayFrom next events with
          | .error failure => .error failure
          | .ok states => .ok (next :: states)

/-- What is known of a store once its lineage is replayed. -/
structure Loaded (α D : Type) where
  events : List (StoreEvent α D)
  head : StoreState α D
  states : List (StoreState α D)
deriving DecidableEq

def replay (storeId : Text) (events : List (StoreEvent α D)) : Except Failure (Loaded α D) :=
  let first := firstState codec storeId
  match replayFrom codec first events with
  | .error failure => .error failure
  | .ok states => .ok ⟨events, states.getLastD first, first :: states⟩

/-! ## Stores -/

/-- A store: the memory profile has its lineage loaded, the others have files. -/
inductive Store (α D : Type) where
  | memory (loaded : Loaded α D)
  | files (live : Bool) (events : List (StoreEvent α D))

namespace Store

def profile : Store α D → StoreProfile
  | .memory _ => .memoryReplay
  | .files false _ => .filesystemReplay
  | .files true _ => .filesystemLive

def events : Store α D → List (StoreEvent α D)
  | .memory loaded => loaded.events
  | .files _ events => events

end Store

/-- An event file that `readBoundedJson` reads: its text ends with a line break. -/
def readable (value : StoreEvent α D) : Bool := codec.eventBytes value + 1 ≤ maximumBytes

def load (storeId : Text) : Store α D → Except Failure (Loaded α D)
  | .memory loaded => .ok loaded
  | .files _ events =>
      if maximumEvents < events.length then
        .error (storeFailure "SGOS_OPERATIONAL_STORE_LIMIT"
          "Filesystem Operational Store event count exceeds the installed ceiling.")
      else if events.all (readable codec) = false then
        .error (corrupt "Operational event is not a bounded regular file.")
      else replay codec storeId events

/-- A store takes an event, and the state behind it. -/
def Store.publish (store : Store α D) (value : StoreEvent α D) (next : StoreState α D) : Store α D :=
  match store with
  | .memory loaded => .memory ⟨loaded.events ++ [value], next, loaded.states ++ [next]⟩
  | .files live events => .files live (events ++ [value])

/-- Only the filesystem profiles count their events before they take one. -/
def Store.full : Store α D → Bool
  | .memory _ => false
  | .files _ events => maximumEvents ≤ events.length

structure Transaction (α D : Type) where
  expectedRevision : Nat
  expectedStateSha256 : D
  changes : List (Change α)

def transactLoaded (full : Bool) (current : StoreState α D) (input : Transaction α D)
    (operation : StoreOperation) : Except Failure (StoreEvent α D × StoreState α D) :=
  if input.expectedRevision ≠ current.revision ∨ input.expectedStateSha256 ≠ current.stateSha256 then
    .error (storeFailure "SGOS_OPERATIONAL_CAS_MISMATCH"
      "Operational transaction lost its compare-and-swap race.")
  else if full then
    .error (storeFailure "SGOS_OPERATIONAL_STORE_LIMIT"
      "Filesystem Operational Store event count exceeds the installed ceiling.")
  else
    match normalizedChanges codec current.entries input.changes with
    | .error failure => .error failure
    | .ok changes =>
        match applyChanges codec current.entries changes with
        | .error failure => .error failure
        | .ok entries =>
            let value := eventOf codec current operation changes entries
            if maximumBytes < codec.eventBytes value then .error (overLimit (js "Operational event"))
            else .ok (value, stateOf codec current.storeId value.revision (some value.eventSha256) entries)

/-- `transactLocked`. -/
def transact (storeId : Text) (store : Store α D) (input : Transaction α D) (operation : StoreOperation) :
    Store α D × Except Failure (StoreState α D) :=
  match load codec storeId store with
  | .error failure => (store, .error failure)
  | .ok loaded =>
      match transactLoaded codec store.full loaded.head input operation with
      | .error failure => (store, .error failure)
      | .ok (value, next) => (store.publish value next, .ok next)

/-! ## Backup and restore -/

def exportBackup (storeId : Text) (store : Store α D) : Except Failure (Backup α D) :=
  match load codec storeId store with
  | .error failure => .error failure
  | .ok loaded =>
      let core : BackupCore α D := ⟨store.profile, storeId, loaded.events, loaded.head⟩
      .ok { core with backupSha256 := codec.backupDigest core }

def backupInvalid (message : String) : Failure := storeFailure "SGOS_OPERATIONAL_BACKUP_INVALID" message

def validateBackup (storeId : Text) (profile : StoreProfile) (value : Backup α D) :
    Except Failure (Loaded α D) :=
  if value.profile ≠ profile ∨ value.storeId ≠ storeId then
    .error (backupInvalid "Operational backup is invalid.")
  else if maximumEvents < value.events.length then
    .error (storeFailure "SGOS_OPERATIONAL_STORE_LIMIT"
      "Operational backup exceeds the installed event ceiling.")
  else if codec.backupDigest value.toBackupCore ≠ value.backupSha256 then
    .error (backupInvalid "Operational backup digest is invalid.")
  else if maximumBytes < codec.backupBytes value then .error (overLimit (js "Operational backup"))
  else
    match replay codec storeId value.events with
    | .error failure => .error failure
    | .ok replayed =>
        if replayed.head ≠ value.head then
          .error (backupInvalid "Operational backup head does not match its lineage.")
        else .ok replayed

/-- What a backup is at least as long as: the memory profile asks for the revision. -/
def Store.reach (store : Store α D) (loaded : Loaded α D) : Nat :=
  match store with
  | .memory _ => loaded.head.revision
  | .files _ _ => loaded.events.length

/-- The lineage is that of the backup as far as it goes, by the digests of its events. -/
def fastForwards (store : Store α D) (loaded : Loaded α D) (value : Backup α D) : Bool :=
  store.reach loaded ≤ value.events.length
    && (loaded.events.map StoreEvent.eventSha256).isPrefixOf (value.events.map StoreEvent.eventSha256)

/-- A plan with the digest that confirms it. -/
abbrev Confirmed (P D : Type) := P × D

/-- What `planRestore` and `restore` have in common: the plan, and the backup's lineage. -/
def restorePlan (storeId : Text) (store : Store α D) (loaded : Loaded α D) (value : Backup α D) :
    Except Failure (Confirmed (RestorePlan D) D × Loaded α D) :=
  match validateBackup codec storeId store.profile value with
  | .error failure => .error failure
  | .ok replayed =>
      if fastForwards store loaded value = false then
        .error (storeFailure "SGOS_OPERATIONAL_RESTORE_DIVERGED"
          "Operational backup does not fast-forward the current lineage.")
      else
        let plan : RestorePlan D := ⟨storeId, store.profile, loaded.head.stateSha256 ≠ value.head.stateSha256,
          loaded.head.stateSha256, value.head.stateSha256, value.backupSha256⟩
        .ok ((plan, codec.restoreDigest plan), replayed)

def planRestore (storeId : Text) (store : Store α D) (value : Backup α D) :
    Except Failure (Confirmed (RestorePlan D) D) :=
  match load codec storeId store with
  | .error failure => .error failure
  | .ok loaded => (restorePlan codec storeId store loaded value).map Prod.fst

/-- Events are written one at a time, each behind a look at the store as it is then. -/
def importEvents (storeId : Text) (live : Bool) (events : List (StoreEvent α D)) :
    List (StoreEvent α D) → Store α D × Except Failure Unit
  | [] => (.files live events, .ok ())
  | value :: rest =>
      match load codec storeId (.files live events) with
      | .error failure => (.files live events, .error failure)
      | .ok loaded =>
          match validateEvent codec value loaded.head with
          | .error failure => (.files live events, .error failure)
          | .ok _ => importEvents storeId live (events ++ [value]) rest

/-- The store takes over the lineage of a backup that fast-forwards its own; a stop
after some events leaves those in their files. -/
def adopt (storeId : Text) (store : Store α D) (loaded : Loaded α D) (plan : RestorePlan D)
    (value : Backup α D) (replayed : Loaded α D) : Store α D × Except Failure Unit :=
  match store with
  | .memory kept => (.memory (if plan.fastForward then replayed else kept), .ok ())
  | .files live events => importEvents codec storeId live events (value.events.drop loaded.events.length)

def restore (storeId : Text) (store : Store α D) (value : Backup α D) (confirmationSha256 : D) :
    Store α D × Except Failure (StoreState α D) :=
  match load codec storeId store with
  | .error failure => (store, .error failure)
  | .ok loaded =>
      match restorePlan codec storeId store loaded value with
      | .error failure => (store, .error failure)
      | .ok ((plan, required), replayed) =>
          if confirmationSha256 ≠ required then
            (store, .error (storeFailure "SGOS_OPERATIONAL_RESTORE_STALE"
              "Operational restore confirmation does not match the current plan."))
          else
            match adopt codec storeId store loaded plan value replayed with
            | (after, .error failure) => (after, .error failure)
            | (after, .ok ()) =>
                match load codec storeId after with
                | .error failure => (after, .error failure)
                | .ok loaded => (after, .ok loaded.head)

/-- What a restore leaves that stops when some events are written; a store in memory
takes a backup at once. -/
def stoppedRestore (store : Store α D) (value : Backup α D) (written : Nat) : Store α D :=
  match store with
  | .memory loaded => .memory loaded
  | .files live events => .files live (events ++ (value.events.drop events.length).take written)

/-! ## Rollback -/

def rollbackInvalid (message : String) : Failure := storeFailure "SGOS_OPERATIONAL_ROLLBACK_INVALID" message

/-- The plan, and the state that it leads back to. -/
def rollbackPlan (storeId : Text) (store : Store α D) (loaded : Loaded α D) (revision : Nat) :
    Except Failure (Confirmed (RollbackPlan D) D × StoreState α D) :=
  if maximumInteger < revision ∨ loaded.head.revision ≤ revision then
    .error (rollbackInvalid "Operational rollback revision must name an earlier retained state.")
  else
    match loaded.states[revision]? with
    -- a state that is missing throws as its digest is asked for
    | none => .error (.typeError (js "Cannot read properties of undefined (reading 'stateSha256')"))
    | some target =>
        let plan : RollbackPlan D := ⟨storeId, store.profile, loaded.head.revision, loaded.head.stateSha256,
          revision, target.stateSha256⟩
        .ok ((plan, codec.rollbackDigest plan), target)

def planRollback (storeId : Text) (store : Store α D) (revision : Nat) :
    Except Failure (Confirmed (RollbackPlan D) D) :=
  match load codec storeId store with
  | .error failure => .error failure
  | .ok loaded => (rollbackPlan codec storeId store loaded revision).map Prod.fst

/-- What has to be done with a key. -/
def changeBack (current target : Entries α) (key : Text) : Option (Change α) :=
  match target.lookup key with
  | none => some (.delete key)
  | some value => if current.lookup key = some value then none else some (.put key value)

/-- The changes that lead from entries back to others, by their keys. -/
def changesBack (current target : Entries α) : List (Change α) :=
  ((current.keys ∪ target.keys).sort LeUnits).filterMap (changeBack current target)

def rollback (storeId : Text) (store : Store α D) (revision : Nat) (confirmationSha256 : D) :
    Store α D × Except Failure (StoreState α D) :=
  match load codec storeId store with
  | .error failure => (store, .error failure)
  | .ok loaded =>
      match rollbackPlan codec storeId store loaded revision with
      | .error failure => (store, .error failure)
      | .ok ((_, required), target) =>
          if confirmationSha256 ≠ required then
            (store, .error (storeFailure "SGOS_OPERATIONAL_ROLLBACK_STALE"
              "Operational rollback confirmation does not match the current plan."))
          else
            let changes := changesBack loaded.head.entries target.entries
            if changes = [] then
              (store, .error (rollbackInvalid "Operational rollback target has the same material state."))
            else
              transact codec storeId store ⟨loaded.head.revision, loaded.head.stateSha256, changes⟩
                (.rollback revision)

/-! ## Runs -/

/-- What is asked of a store; a restore may stop when some events are written. -/
inductive Request (α D : Type) where
  | transact (input : Transaction α D)
  | restore (value : Backup α D) (confirmationSha256 : D)
  | stopped (value : Backup α D) (confirmationSha256 : D) (written : Nat)
  | rollback (revision : Nat) (confirmationSha256 : D)

/-- A request, and what becomes of the store; a restore that stops has no answer. -/
def respond (storeId : Text) (store : Store α D) :
    Request α D → Store α D × Option (Except Failure (StoreState α D))
  | .transact input => (transact codec storeId store input .transact).map id some
  | .restore value confirmation => (restore codec storeId store value confirmation).map id some
  | .stopped value confirmation written =>
      match planRestore codec storeId store value with
      | .error failure => (store, some (.error failure))
      | .ok (_, required) =>
          if confirmation ≠ required then
            (store, some (restore codec storeId store value confirmation).2)
          else (stoppedRestore store value written, none)
  | .rollback revision confirmation => (rollback codec storeId store revision confirmation).map id some

end Codec

end Sgos

end SingularityFlow
