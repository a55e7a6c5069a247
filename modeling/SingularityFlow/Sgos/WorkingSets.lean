/-
# Working sets

A working set is what a task is given to read: slices of memory, each bound
to an immutable reference, within a ceiling of bytes.  What does not fit is
not dropped in silence; it is recorded as an omission, and what is secret or
restricted is never more than that.

The sources are taken in order of priority.  Each is admitted if the record
with it still fits; the omissions that come later can push the record over
the ceiling again, and then entries are given up from the end.
-/
import SingularityFlow.Git.Objects
import SingularityFlow.Sgos.ControlSuccessor
import SingularityFlow.Sgos.Resources
import Mathlib.Data.List.Sort

namespace SingularityFlow

open Ecma

namespace Sgos

/-! ## Installed bounds -/

def maximumWorkingSetBytes : Nat := 1024 * 1024
def maximumWorkingSetItems : Nat := 256
def minimumWorkingSetBytes : Nat := 4096
def maximumSliceBytes : Nat := 256 * 1024

/-! ## Memory references -/

inductive MemoryClass where
  | program | process | input | harnessWorking | sharedArtifact | evidence
  | derived | cache | approvedGuidance | external | secretHandle
deriving DecidableEq

def MemoryClass.name : MemoryClass → Text
  | .program => js "program"
  | .process => js "process"
  | .input => js "input"
  | .harnessWorking => js "harness-working"
  | .sharedArtifact => js "shared-artifact"
  | .evidence => js "evidence"
  | .derived => js "derived"
  | .cache => js "cache"
  | .approvedGuidance => js "approved-guidance"
  | .external => js "external"
  | .secretHandle => js "secret-handle"

inductive MemoryAuthority where
  | programAuthority | processBoundary | immutableInput | verifiedOutput
  | authoritativeEvidence | derivedRebuildable | approvedGuidance
  | externalObservation | nonAuthoritative | secretBroker
deriving DecidableEq

def MemoryAuthority.name : MemoryAuthority → Text
  | .programAuthority => js "program-authority"
  | .processBoundary => js "process-boundary"
  | .immutableInput => js "immutable-input"
  | .verifiedOutput => js "verified-output"
  | .authoritativeEvidence => js "authoritative-evidence"
  | .derivedRebuildable => js "derived-rebuildable"
  | .approvedGuidance => js "approved-guidance"
  | .externalObservation => js "external-observation"
  | .nonAuthoritative => js "non-authoritative"
  | .secretBroker => js "secret-broker"

inductive Sensitivity where
  | isPublic | internal | confidential | restricted
deriving DecidableEq

def Sensitivity.name : Sensitivity → Text
  | .isPublic => js "public"
  | .internal => js "internal"
  | .confidential => js "confidential"
  | .restricted => js "restricted"

structure MemoryObject where
  schema : Text
  revision : Nat
  sha256 : Text
  bytes : Nat
deriving DecidableEq

structure MemoryDependency where
  address : Text
  revision : Nat
  memoryRefSha256 : Text
deriving DecidableEq

/-- A memory reference that has exactly the fields it may have. -/
structure MemoryRef where
  address : Text
  memoryClass : MemoryClass
  object : MemoryObject
  authority : MemoryAuthority
  sensitivity : Sensitivity
  storeId : Text
  dependencies : List MemoryDependency
  expansionHandle : Text
  memoryRefSha256 : Text
deriving DecidableEq

def MemoryObject.toValue (object : MemoryObject) : Value :=
  .obj [(js "schema", .str object.schema), (js "revision", .num (Number.ofNat object.revision)),
    (js "sha256", .str object.sha256), (js "bytes", .num (Number.ofNat object.bytes))]

def MemoryDependency.toValue (dependency : MemoryDependency) : Value :=
  .obj [(js "address", .str dependency.address),
    (js "revision", .num (Number.ofNat dependency.revision)),
    (js "memoryRefSha256", .str dependency.memoryRefSha256)]

/-- A reference without its own hash, which is what the hash is taken of. -/
def MemoryRef.core (ref : MemoryRef) : Members :=
  [(js "protocolVersion", .num (Number.ofNat 1)), (js "kind", .str (js "gvm-memory-ref")),
    (js "address", .str ref.address), (js "memoryClass", .str ref.memoryClass.name),
    (js "object", ref.object.toValue), (js "authority", .str ref.authority.name),
    (js "sensitivity", .str ref.sensitivity.name),
    (js "storage", .obj [(js "storeId", .str ref.storeId)]),
    (js "dependencies", .arr (ref.dependencies.map MemoryDependency.toValue)),
    (js "expansionHandle", .str ref.expansionHandle)]

def MemoryRef.toValue (ref : MemoryRef) : Value :=
  .obj (ref.core ++ [(js "memoryRefSha256", .str ref.memoryRefSha256)])

/-- `sha256` of a record. -/
def sha256Record (v : Value) : Text := js "sha256:" ++ recordSha256 v

/-- `sha256` of bytes. -/
def sha256Bytes (bytes : Bytes) : Text := js "sha256:" ++ sha256Hex bytes

/-- `SHA256_PATTERN`. -/
def isSha256Digest (t : Text) : Bool :=
  (js "sha256:").isPrefixOf t && (t.drop 7).length == 64 && (t.drop 7).all Git.isLowerHex

def isSgosSecretHandleReference (t : Text) : Bool :=
  (js "sfref:v1:secret-handle:").isPrefixOf t && isSha256Digest (t.drop 23)

def memoryFailure (message : Text) (code : String) : Failure :=
  .singularityFlow message (some (js code))

def contractInvalid (message : Text) : Failure :=
  memoryFailure message "SGOS_MEMORY_CONTRACT_INVALID"

def requireString (value label : Text) : Except Failure Unit :=
  failIf (value = []) (contractInvalid (label ++ js " must be a non-empty string."))

def requireDigest (value label : Text) : Except Failure Unit :=
  failIf (isSha256Digest value = false)
    (contractInvalid (label ++ js " must be an exact sha256 digest."))

/-- `Number.isSafeInteger`, of a whole number. -/
def IsSafe (n : Nat) : Prop := n < 2 ^ 53

instance (n : Nat) : Decidable (IsSafe n) := inferInstanceAs (Decidable (n < 2 ^ 53))

/-- `${address}\u0000${revision}`. -/
def MemoryDependency.key (dependency : MemoryDependency) : Text :=
  dependency.address ++ 0 :: natText dependency.revision

/-- The loop over the dependencies, from behind the one whose key is `previous`. -/
def checkDependencies : Nat → Option Text → List MemoryDependency → Except Failure Unit
  | _, _, [] => .ok ()
  | index, previous, dependency :: rest => do
      let label := js "memory-ref.dependencies[" ++ natText index ++ js "]."
      requireString dependency.address (label ++ js "address")
      failIf (¬ IsSafe dependency.revision ∨ dependency.revision < 1)
        (contractInvalid (label ++ js "revision must be a positive integer."))
      requireDigest dependency.memoryRefSha256 (label ++ js "memoryRefSha256")
      failIf (∃ key ∈ previous, compareSgosCodePoints key dependency.key ≠ .lt)
        (contractInvalid (js "memory-ref.dependencies must be unique and canonically sorted."))
      checkDependencies (index + 1) (some dependency.key) rest

/-- `memoryRefCore`, but for what the fields of a reference already say. -/
def checkMemoryRef (ref : MemoryRef) : Except Failure Unit := do
  requireString ref.address (js "memory-ref.address")
  failIf (¬ js "sfref:v1:" <+: ref.address)
    (contractInvalid (js "memory-ref.address must use sfref:v1."))
  requireString ref.object.schema (js "memory-ref.object.schema")
  failIf (¬ IsSafe ref.object.revision ∨ ref.object.revision < 1)
    (contractInvalid (js "memory-ref.object.revision must be a positive safe integer."))
  requireDigest ref.object.sha256 (js "memory-ref.object.sha256")
  failIf (maximumSliceBytes < ref.object.bytes)
    (contractInvalid (js "memory-ref.object.bytes must be between 0 and 262144."))
  requireString ref.storeId (js "memory-ref.storage.storeId")
  failIf (128 < ref.dependencies.length)
    (contractInvalid (js "memory-ref.dependencies must be a bounded array."))
  checkDependencies 0 none ref.dependencies
  requireString ref.expansionHandle (js "memory-ref.expansionHandle")
  requireDigest ref.memoryRefSha256 (js "memory-ref.memoryRefSha256")
  if ref.memoryClass = .secretHandle then
    failIf (ref.authority ≠ .secretBroker ∨ ref.sensitivity ≠ .restricted ∨ ref.object.bytes ≠ 0
        ∨ isSgosSecretHandleReference ref.address = false)
      (memoryFailure
        (js "Secret memory may contain only a restricted, zero-byte opaque broker handle.")
        "SGOS_MEMORY_SECRET_HANDLE_INVALID")
  else
    failIf (ref.authority = .secretBroker)
      (contractInvalid (js "Secret Broker authority is reserved for opaque secret handles."))

def validateSgosMemoryRef (ref : MemoryRef) : Except Failure MemoryRef := do
  checkMemoryRef ref
  failIf (sha256Record (.obj ref.core) ≠ ref.memoryRefSha256)
    (memoryFailure (js "Memory reference failed its exact content hash.")
      "SGOS_MEMORY_REFERENCE_TAMPERED")
  return ref

/-- What a working set only names. -/
def MemoryRef.isolated (ref : MemoryRef) : Prop :=
  ref.memoryClass = .secretHandle ∨ ref.sensitivity = .restricted

instance (ref : MemoryRef) : Decidable ref.isolated :=
  inferInstanceAs (Decidable (_ ∨ _))

/-! ## Payloads -/

def unsafeKeys : List Text := [js "__proto__", js "constructor", js "prototype"]

mutual

/-- `cloneJson`; the members come in the order in which they are listed. -/
def cloneJson (location : Text) : Value → Except Failure Value
  | .num x =>
      if x.isFinite then .ok (.num x)
      else .error (contractInvalid (location ++ js " contains a non-finite number."))
  | .arr items => (sequence (cloneItems location 0 items)).map .arr
  | .obj members =>
      (sequence ((propertyOrder (cloneMembers location members)).map
        fun p => p.2.map fun v => (p.1, v))).map .obj
  | v => .ok v

def cloneItems (location : Text) : Nat → List Value → List (Except Failure Value)
  | _, [] => []
  | index, v :: rest =>
      cloneJson (location ++ js "[" ++ natText index ++ js "]") v
        :: cloneItems location (index + 1) rest

def cloneMembers (location : Text) : Members → List (Text × Except Failure Value)
  | [] => []
  | (name, v) :: rest =>
      (name,
        if name ∈ unsafeKeys then
          .error (contractInvalid (location ++ js " contains unsafe key '" ++ name ++ js "'."))
        else cloneJson (location ++ js "." ++ name) v)
        :: cloneMembers location rest

end

def payloadBytes : Value → Except Failure Bytes
  | .null => .ok []
  | .str t => .ok (textEncode t)
  | v => (cloneJson (js "$") v).map fun v => textEncode (canonicalJson v)

def isKeyBreak (u : UInt16) : Bool := u = 0x2D || u = 0x5F || u = 0x2E

/-- The words of `SECRET_SHAPED_KEY`; the parts of a word may be apart by one break. -/
def secretWords : List (List Text) :=
  [[js "secret"], [js "password"], [js "passwd"], [js "credential"], [js "private", js "key"],
    [js "access", js "token"], [js "refresh", js "token"]]

/-- What is behind a word. -/
def behindWord : List Text → Text → Option Text
  | [], t => some t
  | part :: rest, t =>
      if part.isPrefixOf t then
        let behind := t.drop part.length
        match rest, behind with
        | _ :: _, u :: more => behindWord rest (if isKeyBreak u then more else behind)
        | _, _ => behindWord rest behind
      else none

/-- A word stands at the front, up to a break or the end. -/
def startsSecret (t : Text) : Bool :=
  secretWords.any fun word => match behindWord word t with
    | some [] => true
    | some (u :: _) => isKeyBreak u
    | none => false

/-- `SECRET_SHAPED_KEY.test(key)`, which does not see the case of letters. -/
def isSecretShapedKey (key : Text) : Bool :=
  let folded := key.map lowerAscii
  startsSecret folded || folded.tails.any fun t => match t with
    | u :: rest => isKeyBreak u && startsSecret rest
    | [] => false

def secretRefused (message : Text) : Failure :=
  memoryFailure message "SGOS_WORKING_SET_SECRET_REFUSED"

section Scanned

/- `scanText(value, { path })`, by the rules of its findings. -/
variable (scanText : Text → Text → List Text)

def refuseSecretText (value location : Text) : Except Failure Unit :=
  match scanText value location with
  | [] => .ok ()
  | rule :: _ => .error (secretRefused (js "Working-set payload '" ++ location
      ++ js "' contains text classified as secret material (" ++ rule
      ++ js "). Use an opaque Secret Broker handle instead."))

/-- The scan of a whole array or object as it is printed. -/
def refuseSerialized (serialized : Bool) (v : Value) (location : Text) : Except Failure Unit :=
  if serialized then do
    let clone ← cloneJson (js "$") v
    refuseSecretText scanText (canonicalJson clone) (location ++ js "#serialized")
  else .ok ()

mutual

def assertNoSecretShapedPayload (serialized : Bool) (location : Text) : Value → Except Failure Unit
  | .str t => refuseSecretText scanText t location
  | .arr items => do
      refuseSerialized scanText serialized (.arr items) location
      let _ ← sequence (assertItems location 0 items)
      return ()
  | .obj members => do
      refuseSerialized scanText serialized (.obj members) location
      let _ ← sequence ((propertyOrder (assertMembers location members)).map Prod.snd)
      return ()
  | _ => .ok ()

def assertItems (location : Text) : Nat → List Value → List (Except Failure Unit)
  | _, [] => []
  | index, v :: rest =>
      assertNoSecretShapedPayload false (location ++ js "[" ++ natText index ++ js "]") v
        :: assertItems location (index + 1) rest

def assertMembers (location : Text) : Members → List (Text × Except Failure Unit)
  | [] => []
  | (name, v) :: rest =>
      (name,
        if isSecretShapedKey name then
          .error (secretRefused (js "Working-set payload '" ++ location ++ js "." ++ name
            ++ js "' resembles secret material. Use an opaque Secret Broker handle instead."))
        else assertNoSecretShapedPayload false (location ++ js "." ++ name) v)
        :: assertMembers location rest

end

/-! ## Sources -/

inductive WorkingSetPriority where
  | activeHumanInstruction | taskContract | pinnedLaw | objectiveAcceptance | verificationGap
  | directSourceContext | dependencyOutput | derivedMemory | approvedGuidance | historicalContext
deriving DecidableEq

/-- `SGOS_WORKING_SET_PRIORITIES`. -/
def workingSetPriorities : List WorkingSetPriority :=
  [.activeHumanInstruction, .taskContract, .pinnedLaw, .objectiveAcceptance, .verificationGap,
    .directSourceContext, .dependencyOutput, .derivedMemory, .approvedGuidance, .historicalContext]

def WorkingSetPriority.name : WorkingSetPriority → Text
  | .activeHumanInstruction => js "active-human-instruction"
  | .taskContract => js "task-contract"
  | .pinnedLaw => js "pinned-law"
  | .objectiveAcceptance => js "objective-acceptance"
  | .verificationGap => js "verification-gap"
  | .directSourceContext => js "direct-source-context"
  | .dependencyOutput => js "dependency-output"
  | .derivedMemory => js "derived-memory"
  | .approvedGuidance => js "approved-guidance"
  | .historicalContext => js "historical-context"

def WorkingSetPriority.index (priority : WorkingSetPriority) : Nat :=
  workingSetPriorities.idxOf priority

/-- Why a source is only named. -/
inductive OmissionReason where
  | budgetExceeded | secretIsolated
deriving DecidableEq

def OmissionReason.name : OmissionReason → Text
  | .budgetExceeded => js "budget-exceeded"
  | .secretIsolated => js "secret-isolated"

/-- A source as it is given. -/
structure SourceValue where
  ref : MemoryRef
  payload : Value
  expansionHandle : Text

/-- A source that has been checked. -/
structure Source where
  priority : WorkingSetPriority
  ref : MemoryRef
  payload : Value
  expansionHandle : Text
  forcedOmission : Option OmissionReason

/-- A payload is the object that its reference binds. -/
def checkBinding (ref : MemoryRef) (bytes : Bytes) (message : Text) : Except Failure Unit :=
  failIf (bytes.length ≠ ref.object.bytes ∨ sha256Bytes bytes ≠ ref.object.sha256)
    (memoryFailure message "SGOS_MEMORY_PAYLOAD_MISMATCH")

def sourceEntry (value : SourceValue) (priority : WorkingSetPriority) : Except Failure Source := do
  let ref ← validateSgosMemoryRef value.ref
  let payload ← cloneJson (js "$") value.payload
  requireString value.expansionHandle
    (js "working-set source '" ++ priority.name ++ js "'.expansionHandle")
  failIf (value.expansionHandle ≠ ref.expansionHandle) (memoryFailure
    (js "Working-set source '" ++ ref.address ++ js "' changed its immutable expansion handle.")
    "SGOS_MEMORY_EXPANSION_HANDLE_MISMATCH")
  if ref.isolated then
    return ⟨priority, ref, .null, value.expansionHandle, some .secretIsolated⟩
  else
    assertNoSecretShapedPayload scanText true (js "$") payload
    let bytes ← payloadBytes payload
    checkBinding ref bytes (js "Working-set source '" ++ ref.address
      ++ js "' payload does not match its immutable object binding.")
    return ⟨priority, ref, payload, value.expansionHandle, none⟩

/-- `sourceIdentity`. -/
def MemoryRef.identity (ref : MemoryRef) : Text :=
  ref.address ++ js "@" ++ natText ref.object.revision ++ js "#" ++ ref.memoryRefSha256

def Source.identity (source : Source) : Text := source.ref.identity

/-! ## The record -/

structure WorkingSetEntry where
  priority : WorkingSetPriority
  ref : MemoryRef
  payload : Value

structure Omission where
  priority : WorkingSetPriority
  reason : OmissionReason
  sourceIdentity : Text
  size : Nat
  expansionHandle : Text
deriving DecidableEq

def WorkingSetEntry.toValue (entry : WorkingSetEntry) : Value :=
  .obj [(js "priority", .str entry.priority.name), (js "ref", entry.ref.toValue),
    (js "payload", entry.payload)]

def Omission.toValue (omission : Omission) : Value :=
  .obj [(js "priority", .str omission.priority.name), (js "reason", .str omission.reason.name),
    (js "sourceIdentity", .str omission.sourceIdentity),
    (js "size", .num (Number.ofNat omission.size)),
    (js "expansionHandle", .str omission.expansionHandle)]

/-- What a working set is for. -/
structure WorkingSetHeader where
  processId : Text
  taskInstanceId : Text
  checkpointSha256 : Text
  programSha256 : Text
  policySnapshotSha256 : Text
  taskContractSha256 : Text
  maximumBytes : Nat
deriving DecidableEq

/-- A working set that is not sealed. -/
structure WorkingSetCore where
  header : WorkingSetHeader
  payloadBytes : Nat
  entries : List WorkingSetEntry
  omissions : List Omission

structure WorkingSet where
  core : WorkingSetCore
  workingSetSha256 : Text

def WorkingSetCore.members (core : WorkingSetCore) : Members :=
  [(js "protocolVersion", .num (Number.ofNat 1)), (js "kind", .str (js "gvm-working-set")),
    (js "processId", .str core.header.processId),
    (js "taskInstanceId", .str core.header.taskInstanceId),
    (js "checkpointSha256", .str core.header.checkpointSha256),
    (js "programSha256", .str core.header.programSha256),
    (js "policySnapshotSha256", .str core.header.policySnapshotSha256),
    (js "taskContractSha256", .str core.header.taskContractSha256),
    (js "maximumBytes", .num (Number.ofNat core.header.maximumBytes)),
    (js "payloadBytes", .num (Number.ofNat core.payloadBytes)),
    (js "entries", .arr (core.entries.map WorkingSetEntry.toValue)),
    (js "omissions", .arr (core.omissions.map Omission.toValue)),
    (js "composer", .obj [(js "id", .str (js "sflow-working-set")),
      (js "version", .str (js "1.0.0"))])]

def workingSetHash : Text := js "workingSetSha256"

def WorkingSet.members (record : WorkingSet) : Members :=
  record.core.members ++ [(workingSetHash, .str record.workingSetSha256)]

/-- `Buffer.byteLength(canonicalJson(record))`. -/
def WorkingSet.bytes (record : WorkingSet) : Nat := recordBytes record.members

/-- The hash of a record whose hash is null. -/
def WorkingSetCore.sha256 (core : WorkingSetCore) : Text :=
  sha256Record (.obj (core.members ++ [(workingSetHash, .null)]))

/-- `sealWorkingSet(core).record`. -/
def sealWorkingSet (core : WorkingSetCore) : WorkingSet := ⟨core, core.sha256⟩

/-- `sealWorkingSet(core).bytes`. -/
def WorkingSetCore.sealedBytes (core : WorkingSetCore) : Nat := (sealWorkingSet core).bytes

/-! ## The validator -/

/-- A priority and an identity in one text, as the validator compares them. -/
def orderKey (priority : WorkingSetPriority) (identity : Text) : Text :=
  let digits := natText priority.index
  List.replicate (3 - digits.length) 0x30 ++ digits ++ 0 :: identity

/-- The loop over the entries; it returns the bytes of their payloads. -/
def validateEntries : Option Text → List WorkingSetEntry → Except Failure Nat
  | _, [] => .ok 0
  | previous, entry :: rest => do
      let ref ← validateSgosMemoryRef entry.ref
      failIf ref.isolated
        (secretRefused (js "Secret or restricted memory cannot enter a normal working set."))
      assertNoSecretShapedPayload scanText true (js "$") entry.payload
      let bytes ← Sgos.payloadBytes entry.payload
      checkBinding ref bytes (js "Working-set entry payload does not match its memory reference.")
      let key := orderKey entry.priority ref.identity
      failIf (∃ before ∈ previous, compareSgosCodePoints before key ≠ .lt)
        (contractInvalid (js "Working-set entries must be unique and priority ordered."))
      let calculated ← validateEntries (some key) rest
      return bytes.length + calculated

/-- The loop over the omissions. -/
def validateOmissions : Nat → Option Text → List Omission → Except Failure Unit
  | _, _, [] => .ok ()
  | index, previous, omission :: rest => do
      let label := js "working-set.omissions[" ++ natText index ++ js "]."
      requireString omission.sourceIdentity (label ++ js "sourceIdentity")
      failIf (¬ IsSafe omission.size) (contractInvalid (js "Working-set omission size is invalid."))
      requireString omission.expansionHandle (label ++ js "expansionHandle")
      let key := orderKey omission.priority omission.sourceIdentity
      failIf (∃ before ∈ previous, compareSgosCodePoints before key ≠ .lt)
        (contractInvalid (js "Working-set omissions must be unique and priority ordered."))
      validateOmissions (index + 1) (some key) rest

/-- A ceiling that may be asked for. -/
def Permitted (maximumBytes : Nat) : Prop :=
  minimumWorkingSetBytes ≤ maximumBytes ∧ maximumBytes ≤ maximumWorkingSetBytes

instance (n : Nat) : Decidable (Permitted n) := inferInstanceAs (Decidable (_ ∧ _))

def workingSetCore (record : WorkingSet) : Except Failure WorkingSetCore := do
  let core := record.core
  let header := core.header
  requireString header.processId (js "working-set.processId")
  requireString header.taskInstanceId (js "working-set.taskInstanceId")
  requireDigest header.checkpointSha256 (js "working-set.checkpointSha256")
  requireDigest header.programSha256 (js "working-set.programSha256")
  requireDigest header.policySnapshotSha256 (js "working-set.policySnapshotSha256")
  requireDigest header.taskContractSha256 (js "working-set.taskContractSha256")
  failIf (¬ Permitted header.maximumBytes)
    (contractInvalid (js "working-set.maximumBytes must be between 4096 and 1048576."))
  failIf (header.maximumBytes < core.payloadBytes)
    (contractInvalid (js "working-set.payloadBytes is invalid."))
  failIf (maximumWorkingSetItems < core.entries.length + core.omissions.length)
    (contractInvalid (js "Working-set entries and omissions exceed the installed item bound."))
  let calculated ← validateEntries scanText none core.entries
  failIf (calculated ≠ core.payloadBytes)
    (contractInvalid (js "working-set.payloadBytes does not match entries."))
  validateOmissions 0 none core.omissions
  requireDigest record.workingSetSha256 (js "working-set.workingSetSha256")
  return core

def validateSgosWorkingSet (record : WorkingSet) (checkpointSha256 : Option Text) :
    Except Failure WorkingSet := do
  let core ← workingSetCore scanText record
  failIf (core.sha256 ≠ record.workingSetSha256)
    (memoryFailure (js "Working set failed its exact content hash.") "SGOS_WORKING_SET_TAMPERED")
  failIf (record.core.header.maximumBytes < record.bytes)
    (memoryFailure (js "Working set exceeds its declared byte ceiling.")
      "SGOS_WORKING_SET_BUDGET_EXCEEDED")
  failIf (∃ checkpoint ∈ checkpointSha256, record.core.header.checkpointSha256 ≠ checkpoint)
    (memoryFailure (js "Working set belongs to another Process checkpoint.")
      "SGOS_WORKING_SET_CHECKPOINT_STALE")
  return record

end Scanned

/-! ## Composition -/

/-- The order of the sources, and of their omissions. -/
def orderOf (left right : WorkingSetPriority × Text) : Ordering :=
  (compare left.1.index right.1.index).then (compareSgosCodePoints left.2 right.2)

def Source.place (source : Source) : WorkingSetPriority × Text := (source.priority, source.identity)

def Omission.place (omission : Omission) : WorkingSetPriority × Text :=
  (omission.priority, omission.sourceIdentity)

def LeSource (left right : Source) : Prop := orderOf left.place right.place ≠ .gt

def LeOmission (left right : Omission) : Prop := orderOf left.place right.place ≠ .gt

instance : DecidableRel LeSource := fun _ _ => inferInstanceAs (Decidable (_ ≠ _))
instance : DecidableRel LeOmission := fun _ _ => inferInstanceAs (Decidable (_ ≠ _))

def Source.entry (source : Source) : WorkingSetEntry :=
  ⟨source.priority, source.ref, source.payload⟩

/-- `omission(source, reason)`. -/
def Source.omission (source : Source) (reason : OmissionReason) : Omission :=
  ⟨source.priority, reason, source.identity, source.ref.object.bytes, source.expansionHandle⟩

/-- The omission of an entry that is given up. -/
def WorkingSetEntry.omission (entry : WorkingSetEntry) : Omission :=
  ⟨entry.priority, .budgetExceeded, entry.ref.identity, entry.ref.object.bytes,
    entry.ref.expansionHandle⟩

/-- One turn of the loop that admits sources. -/
def admitSource (base : WorkingSetCore) (source : Source) : WorkingSetCore :=
  match source.forcedOmission with
  | some reason => { base with omissions := base.omissions ++ [source.omission reason] }
  | none =>
      let trial := { base with
        payloadBytes := base.payloadBytes + source.ref.object.bytes
        entries := base.entries ++ [source.entry] }
      if trial.sealedBytes ≤ base.header.maximumBytes then trial
      else { base with omissions := base.omissions ++ [source.omission .budgetExceeded] }

/-- One turn of the loop that gives up the last entry. -/
def releaseEntry (base : WorkingSetCore) (removed : WorkingSetEntry) : WorkingSetCore :=
  { base with
    payloadBytes := base.payloadBytes - removed.ref.object.bytes
    entries := base.entries.dropLast
    omissions := (base.omissions ++ [removed.omission]).insertionSort LeOmission }

/-- The loop that gives up entries while the record is too long. -/
def evictEntries (base : WorkingSetCore) : WorkingSetCore :=
  if base.sealedBytes ≤ base.header.maximumBytes then base
  else if h : base.entries = [] then base
  else evictEntries (releaseEntry base (base.entries.getLast h))
termination_by base.entries.length
decreasing_by
  simp only [releaseEntry, List.length_dropLast]
  have := List.length_pos_of_ne_nil h
  omega

/-- Sources in their order, and no two next to each other with one identity. -/
def refuseRepeats : List Source → Except Failure Unit
  | left :: right :: rest =>
      if left.identity = right.identity then
        .error (memoryFailure
          (js "Working-set repeats immutable source '" ++ right.identity ++ js "'.")
          "SGOS_MEMORY_REFERENCE_DUPLICATE")
      else refuseRepeats (right :: rest)
  | _ => .ok ()

/-- `base`, before anything is placed. -/
def workingSetBase (header : WorkingSetHeader) : Except Failure WorkingSetCore := do
  requireString header.processId (js "processId")
  requireString header.taskInstanceId (js "taskInstanceId")
  requireDigest header.checkpointSha256 (js "checkpointSha256")
  requireDigest header.programSha256 (js "programSha256")
  requireDigest header.policySnapshotSha256 (js "policySnapshotSha256")
  requireDigest header.taskContractSha256 (js "taskContractSha256")
  return ⟨header, 0, [], []⟩

/-- The sources of a request, by priority. -/
abbrev WorkingSetSources := WorkingSetPriority → List SourceValue

/-- `ordered`, as it is filled. -/
def checkedSources (scanText : Text → Text → List Text) (sources : WorkingSetSources) :
    Except Failure (List Source) :=
  sequence (workingSetPriorities.flatMap fun priority =>
    (sources priority).map fun value => sourceEntry scanText value priority)

def budgetTooSmall : Failure :=
  memoryFailure (js "Working-set budget is too small to retain the mandatory omission ledger.")
    "SGOS_WORKING_SET_BUDGET_TOO_SMALL_FOR_OMISSIONS"

/-- What `composeSgosWorkingSet` does with sources that are in their order. -/
def composeOrdered (scanText : Text → Text → List Text) (header : WorkingSetHeader)
    (ordered : List Source) : Except Failure WorkingSet := do
  refuseRepeats ordered
  let base ← workingSetBase header
  let placed := evictEntries (ordered.foldl admitSource base)
  failIf (header.maximumBytes < placed.sealedBytes) budgetTooSmall
  let _ ← validateSgosWorkingSet scanText (sealWorkingSet placed) none
  return sealWorkingSet placed

def composeSgosWorkingSet (scanText : Text → Text → List Text) (header : WorkingSetHeader)
    (sources : WorkingSetSources) : Except Failure WorkingSet := do
  failIf (¬ Permitted header.maximumBytes)
    (memoryFailure (js "Working-set byte ceiling must be between 4096 and 1048576.")
      "SGOS_WORKING_SET_BUDGET_INVALID")
  let ordered ← checkedSources scanText sources
  failIf (maximumWorkingSetItems < ordered.length)
    (memoryFailure (js "Working-set has more than 256 source items.")
      "SGOS_WORKING_SET_ITEM_LIMIT")
  composeOrdered scanText header (ordered.insertionSort LeSource)

end Sgos

end SingularityFlow
