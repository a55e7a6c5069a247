/-
# The records of plan corrections

A correction is kept in the workflow as a plain object, written as JSON and read
back by every reader through its schema.  `toValue` is the object that a recording
pushes and `ofValue` the schema's `safeParse`; `ofValue_toValue` says that a reader
gets back what was recorded, and `rewritten_toValue` that writing and reading the
workflow's file changes nothing about it.

What `zod` takes for a UUID and a date are parameters.
-/
import SingularityFlow.Verification.PlanRows
import SingularityFlow.Lib.JsonRoundTrip

namespace SingularityFlow

open Ecma

namespace Verification

/-! ## Fields of an object -/

def text? : Option Value → Option Text
  | some (.str t) => some t
  | _ => none

/-- A field that may be `null`. -/
def nullable? : Option Value → Option (Option Text)
  | some .null => some none
  | some (.str t) => some (some t)
  | _ => none

/-- A field that may be absent. -/
def optional? : Option Value → Option (Option Text)
  | none => some none
  | some (.str t) => some (some t)
  | _ => none

def number? : Option Value → Option Number
  | some (.num x) => some x
  | _ => none

def texts? : List Value → Option (List Text)
  | [] => some []
  | .str t :: rest => (texts? rest).map (t :: ·)
  | _ => none

def list? : Option Value → Option (List Text)
  | some (.arr items) => texts? items
  | _ => none

/-- A list that is absent where it is empty. -/
def optionalList? : Option Value → Option (List Text)
  | none => some []
  | some (.arr items) => texts? items
  | _ => none

def nullableText : Option Text → Value
  | none => .null
  | some t => .str t

@[simp] theorem texts?_map (texts : List Text) : texts? (texts.map .str) = some texts := by
  induction texts with
  | nil => rfl
  | cons t rest ih => rw [List.map_cons, texts?, ih, Option.map_some]

@[simp] theorem nullable?_nullableText (t : Option Text) : nullable? (some (nullableText t)) = some t := by
  cases t with
  | none => rfl
  | some t => rfl

/-! ## Rows -/

def Disposition.text : Disposition → Text
  | .applicable => js "applicable"
  | .notApplicable => js "not-applicable"
  | .nonTest => js "non-test"
  | .unspecified => js "unspecified"

def Disposition.ofText? (t : Text) : Option Disposition :=
  if t = js "applicable" then some .applicable
  else if t = js "not-applicable" then some .notApplicable
  else if t = js "non-test" then some .nonTest
  else if t = js "unspecified" then some .unspecified
  else none

theorem Disposition.ofText?_text (d : Disposition) : ofText? d.text = some d := by
  cases d <;> decide

/-- A field that is written only where it has a value. -/
def optionalField (name : Text) : Option Text → List (Text × Value)
  | none => []
  | some t => [(name, .str t)]

/-- The row as an object, in the order of `normalizeClaimMap`. -/
def PlannedClaim.toValue (claim : PlannedClaim) : Value :=
  .obj ([(js "expectedPaths", .arr (claim.expectedPaths.map .str)),
      (js "tests", .arr (claim.tests.map .str)),
      (js "testDisposition", .str claim.testDisposition.text),
      (js "testReason", nullableText claim.testReason)]
    ++ optionalField (js "verificationCriterion") claim.verificationCriterion
    ++ [(js "deviation", nullableText claim.deviation)]
    ++ optionalField (js "fulfillment") claim.fulfillment
    ++ (if claim.steps = [] then [] else [(js "steps", .arr (claim.steps.map .str))])
    ++ optionalField (js "observableResult") claim.observableResult)

/-- The row that an object is. -/
def PlannedClaim.ofValue : Value → Option PlannedClaim
  | .obj members => do
      let expectedPaths ← list? (lookup (js "expectedPaths") members)
      let tests ← list? (lookup (js "tests") members)
      let disposition ← text? (lookup (js "testDisposition") members)
      let testDisposition ← Disposition.ofText? disposition
      let testReason ← nullable? (lookup (js "testReason") members)
      let verificationCriterion ← optional? (lookup (js "verificationCriterion") members)
      let deviation ← nullable? (lookup (js "deviation") members)
      let fulfillment ← optional? (lookup (js "fulfillment") members)
      let steps ← optionalList? (lookup (js "steps") members)
      let observableResult ← optional? (lookup (js "observableResult") members)
      return { expectedPaths, tests, testDisposition, testReason, verificationCriterion, deviation,
               fulfillment, steps, observableResult }
  | _ => none

/-- A reader gets the row back. -/
theorem PlannedClaim.ofValue_toValue (claim : PlannedClaim) : ofValue claim.toValue = some claim := by
  obtain ⟨expectedPaths, tests, disposition, reason, criterion, deviation, fulfillment, steps, observable⟩ :=
    claim
  -- the optional fields decide which members there are
  have hfields : ofValue (toValue ⟨expectedPaths, tests, disposition, reason, criterion, deviation,
      fulfillment, steps, observable⟩) = (do
        let expectedPaths ← texts? (expectedPaths.map .str)
        let tests ← texts? (tests.map .str)
        let testDisposition ← Disposition.ofText? disposition.text
        let testReason ← nullable? (some (nullableText reason))
        let deviation ← nullable? (some (nullableText deviation))
        let steps ← texts? (steps.map .str)
        return ⟨expectedPaths, tests, testDisposition, testReason, criterion, deviation, fulfillment,
          steps, observable⟩) := by
    cases criterion <;> cases fulfillment <;> cases steps <;> cases observable <;> rfl
  rw [hfields]
  simp only [texts?_map, Disposition.ofText?_text, nullable?_nullableText]
  rfl

/-! ## What the schemas ask of a text -/

def isHex (u : UInt16) : Bool := isDigit u || (0x61 ≤ u.toNat && u.toNat ≤ 0x66)

/-- `/^[a-f0-9]{64}$/u`. -/
def isSha (t : Text) : Bool := t.length = 64 && t.all isHex

/-- `/^[A-Z0-9][A-Z0-9._-]{0,63}$/u`. -/
def isSpecName : Text → Bool
  | [] => false
  | u :: rest => (isUpper u || isDigit u) && rest.length ≤ 63
      && rest.all fun v => isUpper v || isDigit v || v ∈ js "._-"

/-- `/^[A-Z0-9][A-Z0-9._-]{0,63}:[A-Z]{2,4}-\d{3}$/u`. -/
def isClauseId (t : Text) : Bool :=
  match t.splitOn 0x3A with
  | [name, rest] =>
      let letters := rest.takeWhile isUpper
      let number := rest.dropWhile isUpper
      isSpecName name && 2 ≤ letters.length && letters.length ≤ 4 && number.length = 4
        && number.head? = some 0x2D && (number.drop 1).all isDigit
  | _ => false

/-- A prefix and at least three digits. -/
def isSequenceId (lead t : Text) : Bool :=
  lead.isPrefixOf t && 3 ≤ (t.drop lead.length).length && (t.drop lead.length).all isDigit

/-- `portablePath` of a row correction. -/
def isPortablePath (t : Text) : Bool :=
  t ≠ [] && t.length ≤ 512
    && !t.any (fun u => u ∈ js "\\:*?\"<>|" || u.toNat ≤ 0x1F || u = 0x7F)
    && t.head? ≠ some 0x2F
    && (t.splitOn 0x2F).all fun part => part ≠ [] && part ≠ js "." && part ≠ js ".."

/-- A name that Windows keeps for a device: `/^(?:con|prn|aux|nul|com[1-9]|lpt[1-9])(?:\.|$)/iu`. -/
def isDeviceName (part : Text) : Bool :=
  let stem := (part.takeWhile (· ≠ 0x2E)).map lowerAscii
  stem ∈ [js "con", js "prn", js "aux", js "nul"]
    || (stem.length = 4 && stem.take 3 ∈ [js "com", js "lpt"]
      && (stem.drop 3).all fun u => isDigit u && u ≠ 0x30)

/-- `portablePath` of an evidence correction. -/
def isPortableEvidencePath (t : Text) : Bool :=
  isPortablePath t && (t.splitOn 0x2F).all fun part =>
    !(part.getLast?.any fun u => u = 0x2E || u = 0x20) && !isDeviceName part

/-- `z.number().int().positive()`. -/
def isPositiveInt (x : Number) : Bool := x.integer?.any fun n => 1 ≤ n && n ≤ 9007199254740991

/-- `z.string().trim().min(20).max(1000)`, of the text without its blanks. -/
def isReason (t : Text) : Bool := 20 ≤ t.length && t.length ≤ 1000

/-! ## Row corrections -/

/-- The fields of an operation are well formed. -/
def Operation.wellFormed : Operation → Bool
  | .addRow id _ => isClauseId id
  | .addTest id test previous => isClauseId id && isPortablePath test && isSha previous
  | .removeLocation id path previous => isClauseId id && isPortablePath path && isSha previous
  | .replaceLocation id old new previous =>
      isClauseId id && isPortablePath old && isPortablePath new && isSha previous

def Operation.toValue : Operation → Value
  | .addRow id claim =>
      .obj [(js "op", .str (js "add-row")), (js "clauseId", .str id), (js "claim", claim.toValue)]
  | .addTest id test previous =>
      .obj [(js "op", .str (js "add-test")), (js "clauseId", .str id), (js "test", .str test),
        (js "previousClaimSha256", .str previous)]
  | .removeLocation id path previous =>
      .obj [(js "op", .str (js "remove-location")), (js "clauseId", .str id), (js "path", .str path),
        (js "previousClaimSha256", .str previous)]
  | .replaceLocation id old new previous =>
      .obj [(js "op", .str (js "replace-location")), (js "clauseId", .str id), (js "from", .str old),
        (js "to", .str new), (js "previousClaimSha256", .str previous)]

/-- No other members than these: `z.strictObject`. -/
def onlyNames (names : List Text) (members : List (Text × Value)) : Bool :=
  members.all fun member => member.1 ∈ names

/-- `Operation.safeParse`, but for the form of the fields. -/
def Operation.ofValue : Value → Option Operation
  | .obj members => do
      let op ← text? (lookup (js "op") members)
      let clauseId ← text? (lookup (js "clauseId") members)
      if op = js "add-row" then
        guard (onlyNames [js "op", js "clauseId", js "claim"] members)
        let claim ← (lookup (js "claim") members).bind PlannedClaim.ofValue
        return .addRow clauseId claim
      else
        let previous ← text? (lookup (js "previousClaimSha256") members)
        if op = js "add-test" then
          guard (onlyNames [js "op", js "clauseId", js "test", js "previousClaimSha256"] members)
          let test ← text? (lookup (js "test") members)
          return .addTest clauseId test previous
        else if op = js "remove-location" then
          guard (onlyNames [js "op", js "clauseId", js "path", js "previousClaimSha256"] members)
          let path ← text? (lookup (js "path") members)
          return .removeLocation clauseId path previous
        else if op = js "replace-location" then
          guard (onlyNames [js "op", js "clauseId", js "from", js "to", js "previousClaimSha256"] members)
          let old ← text? (lookup (js "from") members)
          let new ← text? (lookup (js "to") members)
          return .replaceLocation clauseId old new previous
        else none
  | _ => none

theorem Operation.ofValue_toValue (operation : Operation) : ofValue operation.toValue = some operation := by
  cases operation with
  | addRow id claim =>
      have hfields : ofValue (toValue (.addRow id claim))
          = (PlannedClaim.ofValue claim.toValue).bind fun c => some (.addRow id c) := rfl
      rw [hfields, PlannedClaim.ofValue_toValue]
      rfl
  | addTest id test previous => rfl
  | removeLocation id path previous => rfl
  | replaceLocation id old new previous => rfl

def operations? : List Value → Option (List Operation)
  | [] => some []
  | value :: rest => do
      let operation ← Operation.ofValue value
      let others ← operations? rest
      return operation :: others

theorem operations?_map (operations : List Operation) :
    operations? (operations.map Operation.toValue) = some operations := by
  induction operations with
  | nil => rfl
  | cons operation rest ih =>
      rw [List.map_cons, operations?, Operation.ofValue_toValue, ih]
      rfl

/-- A recorded correction of rows; its `kind` and its `reviewAssurance` are fixed. -/
structure RowCorrection where
  id : Text
  ownerPhase : Text
  ownerGeneration : Number
  ownerMapSha256 : Text
  operations : List Operation
  reason : Text
  actor : Text
  authorityGroup : Text
  identityAssurance : Option Text
  authorizationId : Text
  date : Text
  upstreamIssue : Option Text
deriving DecidableEq

def rowKind : Text := js "plan-row-correction"

def rowAssurance : Text := js "live-terminal-exact-plan-review"

def maxOperations : Nat := 20

def RowCorrection.toValue (c : RowCorrection) : Value :=
  .obj [(js "id", .str c.id), (js "kind", .str rowKind), (js "ownerPhase", .str c.ownerPhase),
    (js "ownerGeneration", .num c.ownerGeneration), (js "ownerMapSha256", .str c.ownerMapSha256),
    (js "operations", .arr (c.operations.map Operation.toValue)), (js "reason", .str c.reason),
    (js "actor", .str c.actor), (js "authorityGroup", .str c.authorityGroup),
    (js "identityAssurance", nullableText c.identityAssurance),
    (js "authorizationId", .str c.authorizationId), (js "reviewAssurance", .str rowAssurance),
    (js "at", .str c.date), (js "upstreamIssue", nullableText c.upstreamIssue)]

def rowNames : List Text :=
  [js "id", js "kind", js "ownerPhase", js "ownerGeneration", js "ownerMapSha256", js "operations",
    js "reason", js "actor", js "authorityGroup", js "identityAssurance", js "authorizationId",
    js "reviewAssurance", js "at", js "upstreamIssue"]

section Row

variable (isUuid isDatetime : Text → Bool)

/-- The form of the fields of `PlanRowCorrectionSchema`. -/
def RowCorrection.wellFormed (c : RowCorrection) : Bool :=
  isSequenceId (js "PRC-") c.id && c.ownerPhase ≠ [] && isPositiveInt c.ownerGeneration
    && isSha c.ownerMapSha256 && c.operations ≠ [] && c.operations.length ≤ maxOperations
    && c.operations.all Operation.wellFormed && isReason c.reason && c.actor ≠ []
    && c.authorityGroup ≠ [] && isUuid c.authorizationId && isDatetime c.date
    && c.upstreamIssue.all (isSequenceId (js "UPI-"))

/-- `PlanRowCorrectionSchema.safeParse`. -/
def RowCorrection.ofValue : Value → Option RowCorrection
  | .obj members => do
      let id ← text? (lookup (js "id") members)
      let kind ← text? (lookup (js "kind") members)
      let ownerPhase ← text? (lookup (js "ownerPhase") members)
      let ownerGeneration ← number? (lookup (js "ownerGeneration") members)
      let ownerMapSha256 ← text? (lookup (js "ownerMapSha256") members)
      let items ← match lookup (js "operations") members with
        | some (.arr items) => some items
        | _ => none
      let operations ← operations? items
      let reason ← text? (lookup (js "reason") members)
      let actor ← text? (lookup (js "actor") members)
      let authorityGroup ← text? (lookup (js "authorityGroup") members)
      let identityAssurance ← nullable? (lookup (js "identityAssurance") members)
      let authorizationId ← text? (lookup (js "authorizationId") members)
      let reviewAssurance ← text? (lookup (js "reviewAssurance") members)
      let date ← text? (lookup (js "at") members)
      let upstreamIssue ← nullable? (lookup (js "upstreamIssue") members)
      let correction : RowCorrection := {
        id, ownerPhase, ownerGeneration, ownerMapSha256, operations, reason := trim reason, actor,
        authorityGroup, identityAssurance, authorizationId, date, upstreamIssue }
      guard (onlyNames rowNames members)
      guard (kind = rowKind ∧ reviewAssurance = rowAssurance)
      guard (correction.wellFormed isUuid isDatetime)
      return correction
  | _ => none

/-- **A reader gets the recorded correction back.** -/
theorem RowCorrection.ofValue_toValue {c : RowCorrection} (h : c.wellFormed isUuid isDatetime = true)
    (hreason : trim c.reason = c.reason) : ofValue isUuid isDatetime c.toValue = some c := by
  have hfields : ofValue isUuid isDatetime c.toValue = (do
      let operations ← operations? (c.operations.map Operation.toValue)
      let identityAssurance ← nullable? (some (nullableText c.identityAssurance))
      let upstreamIssue ← nullable? (some (nullableText c.upstreamIssue))
      let correction : RowCorrection := { c with
        operations, identityAssurance, upstreamIssue, reason := trim c.reason }
      guard (correction.wellFormed isUuid isDatetime)
      return correction) := rfl
  rw [hfields, operations?_map, nullable?_nullableText, nullable?_nullableText, hreason]
  simp only [Option.bind_eq_bind, Option.bind_some, guard, h, if_true]
  rfl

end Row

/-! ## Evidence corrections -/

/-- A method that is shown and not run. -/
inductive EvidenceMethod where
  | visual | inspection
deriving DecidableEq

def EvidenceMethod.method : EvidenceMethod → Method
  | .visual => .visual
  | .inspection => .inspection

def EvidenceMethod.text : EvidenceMethod → Text
  | .visual => js "visual"
  | .inspection => js "inspection"

def EvidenceMethod.ofText? (t : Text) : Option EvidenceMethod :=
  if t = js "visual" then some .visual else if t = js "inspection" then some .inspection else none

/-- Where the human reviewed it. -/
inductive EvidenceReview where
  | terminal | localUi
deriving DecidableEq

def EvidenceReview.text : EvidenceReview → Text
  | .terminal => js "live-terminal-exact-evidence-review"
  | .localUi => js "live-local-ui-exact-evidence-review"

def EvidenceReview.ofText? (t : Text) : Option EvidenceReview :=
  if t = js "live-terminal-exact-evidence-review" then some .terminal
  else if t = js "live-local-ui-exact-evidence-review" then some .localUi
  else none

/-- A recorded correction of a criterion's evidence; its `kind`, `testsWaived` and
`phaseApproved` are fixed. -/
structure EvidenceAmendment where
  id : Text
  ownerPhase : Text
  ownerGeneration : Number
  ownerMapSha256 : Text
  clauseId : Text
  previousClaimSha256 : Text
  path : Text
  method : EvidenceMethod
  reason : Text
  reviewedSha256 : Text
  reviewedSize : Number
  actor : Text
  authorityGroup : Text
  authorizationId : Text
  reviewAssurance : EvidenceReview
  date : Text
  recordPath : Text
deriving DecidableEq

def evidenceKind : Text := js "evidence-contract-correction"

def EvidenceAmendment.toValue (a : EvidenceAmendment) : Value :=
  .obj [(js "id", .str a.id), (js "kind", .str evidenceKind), (js "ownerPhase", .str a.ownerPhase),
    (js "ownerGeneration", .num a.ownerGeneration), (js "ownerMapSha256", .str a.ownerMapSha256),
    (js "clauseId", .str a.clauseId), (js "previousClaimSha256", .str a.previousClaimSha256),
    (js "path", .str a.path), (js "method", .str a.method.text), (js "reason", .str a.reason),
    (js "reviewedFile", .obj [(js "sha256", .str a.reviewedSha256), (js "size", .num a.reviewedSize)]),
    (js "actor", .str a.actor), (js "authorityGroup", .str a.authorityGroup),
    (js "authorizationId", .str a.authorizationId),
    (js "reviewAssurance", .str a.reviewAssurance.text), (js "at", .str a.date),
    (js "recordPath", .str a.recordPath), (js "testsWaived", .bool false),
    (js "phaseApproved", .bool false)]

def evidenceNames : List Text :=
  [js "id", js "kind", js "ownerPhase", js "ownerGeneration", js "ownerMapSha256", js "clauseId",
    js "previousClaimSha256", js "path", js "method", js "reason", js "reviewedFile", js "actor",
    js "authorityGroup", js "authorizationId", js "reviewAssurance", js "at", js "recordPath",
    js "testsWaived", js "phaseApproved"]

/-- `/^PEA-[a-f0-9]{24}$/u`. -/
def isEvidenceId (t : Text) : Bool :=
  t.take 4 = js "PEA-" && (t.drop 4).length = 24 && (t.drop 4).all isHex

/-- `z.number().int().nonnegative().max(16 * 1024 * 1024)`. -/
def isFileSize (x : Number) : Bool := x.integer?.any fun n => 0 ≤ n && n ≤ 16777216

section Evidence

variable (isDatetime : Text → Bool)

/-- The form of the fields of `EvidenceAmendmentSchema`. -/
def EvidenceAmendment.wellFormed (a : EvidenceAmendment) : Bool :=
  isEvidenceId a.id && a.ownerPhase ≠ [] && isPositiveInt a.ownerGeneration && isSha a.ownerMapSha256
    && isAcId a.clauseId && isSha a.previousClaimSha256 && isPortableEvidencePath a.path
    && isReason a.reason && isSha a.reviewedSha256 && isFileSize a.reviewedSize && a.actor ≠ []
    && a.authorityGroup ≠ [] && a.authorizationId ≠ [] && isDatetime a.date
    && isPortableEvidencePath a.recordPath

/-- `EvidenceAmendmentSchema.safeParse`. -/
def EvidenceAmendment.ofValue : Value → Option EvidenceAmendment
  | .obj members => do
      let id ← text? (lookup (js "id") members)
      let kind ← text? (lookup (js "kind") members)
      let ownerPhase ← text? (lookup (js "ownerPhase") members)
      let ownerGeneration ← number? (lookup (js "ownerGeneration") members)
      let ownerMapSha256 ← text? (lookup (js "ownerMapSha256") members)
      let clauseId ← text? (lookup (js "clauseId") members)
      let previousClaimSha256 ← text? (lookup (js "previousClaimSha256") members)
      let path ← text? (lookup (js "path") members)
      let methodText ← text? (lookup (js "method") members)
      let method ← EvidenceMethod.ofText? methodText
      let reason ← text? (lookup (js "reason") members)
      let file ← match lookup (js "reviewedFile") members with
        | some (.obj file) => some file
        | _ => none
      let reviewedSha256 ← text? (lookup (js "sha256") file)
      let reviewedSize ← number? (lookup (js "size") file)
      let actor ← text? (lookup (js "actor") members)
      let authorityGroup ← text? (lookup (js "authorityGroup") members)
      let authorizationId ← text? (lookup (js "authorizationId") members)
      let reviewText ← text? (lookup (js "reviewAssurance") members)
      let reviewAssurance ← EvidenceReview.ofText? reviewText
      let date ← text? (lookup (js "at") members)
      let recordPath ← text? (lookup (js "recordPath") members)
      let amendment : EvidenceAmendment := {
        id, ownerPhase, ownerGeneration, ownerMapSha256, clauseId, previousClaimSha256, path, method
        reason := trim reason, reviewedSha256, reviewedSize, actor, authorityGroup, authorizationId
        reviewAssurance, date, recordPath }
      guard (onlyNames evidenceNames members && onlyNames [js "sha256", js "size"] file)
      guard (kind = evidenceKind ∧ lookup (js "testsWaived") members = some (.bool false)
        ∧ lookup (js "phaseApproved") members = some (.bool false))
      guard (amendment.wellFormed isDatetime)
      return amendment
  | _ => none

theorem EvidenceAmendment.ofValue_toValue {a : EvidenceAmendment}
    (h : a.wellFormed isDatetime = true) (hreason : trim a.reason = a.reason) :
    ofValue isDatetime a.toValue = some a := by
  have hmethod : EvidenceMethod.ofText? a.method.text = some a.method := by cases a.method <;> decide
  have hreview : EvidenceReview.ofText? a.reviewAssurance.text = some a.reviewAssurance := by
    cases a.reviewAssurance <;> decide
  have hfields : ofValue isDatetime a.toValue = (do
      let method ← EvidenceMethod.ofText? a.method.text
      let reviewAssurance ← EvidenceReview.ofText? a.reviewAssurance.text
      let amendment : EvidenceAmendment := { a with method, reviewAssurance, reason := trim a.reason }
      guard (amendment.wellFormed isDatetime)
      return amendment) := rfl
  rw [hfields, hmethod, hreview, hreason]
  simp only [Option.bind_eq_bind, Option.bind_some, guard, h, if_true]
  rfl

end Evidence

/-! ## Written and read back -/

/-- A value that writing and reading leaves as it is: names that differ and are no
array indices, and numbers that their text spells. -/
structure Kept (v : Value) : Prop where
  proper : v.Proper
  spelled : Value.Everywhere Value.NumberSpelled v
  ordered : Ecma.ordered v = v

theorem kept_leaf {v : Value} (hleaf : v.children = []) (hnumber : v.NumberSpelled) : Kept v := by
  refine ⟨(Value.everywhere_leaf hleaf).mpr ?_, (Value.everywhere_leaf hleaf).mpr hnumber, ?_⟩
  · cases v with
    | obj members =>
        cases members with
        | nil => exact List.nodup_nil
        | cons _ _ => cases hleaf
    | _ => trivial
  · cases v with
    | obj members =>
        cases members with
        | nil => rfl
        | cons _ _ => cases hleaf
    | arr items =>
        cases items with
        | nil => rfl
        | cons _ _ => cases hleaf
    | _ => rfl

theorem kept_str (t : Text) : Kept (.str t) := kept_leaf rfl trivial

theorem kept_bool (b : Bool) : Kept (.bool b) := kept_leaf rfl trivial

theorem kept_nullable (t : Option Text) : Kept (nullableText t) := by
  cases t with
  | none => exact kept_leaf rfl trivial
  | some t => exact kept_str t

theorem kept_arr {items : List Value} (h : ∀ v ∈ items, Kept v) : Kept (.arr items) where
  proper := Value.everywhere_arr.mpr ⟨trivial, fun v hv => (h v hv).proper⟩
  spelled := Value.everywhere_arr.mpr ⟨trivial, fun v hv => (h v hv).spelled⟩
  ordered := by
    rw [Ecma.ordered, orderedItems_eq, List.map_congr_left fun v hv => (h v hv).ordered, List.map_id']

theorem kept_obj {members : List (Text × Value)} (hnames : (members.map Prod.fst).Nodup)
    (hindices : ∀ p ∈ members, arrayIndex? p.1 = none) (h : ∀ p ∈ members, Kept p.2) :
    Kept (.obj members) where
  proper := Value.everywhere_obj.mpr ⟨hnames, fun p hp => (h p hp).proper⟩
  spelled := Value.everywhere_obj.mpr ⟨trivial, fun p hp => (h p hp).spelled⟩
  ordered := by
    have hmembers : orderedMembers members = members := by
      have hsame : members.map (fun p => (p.1, Ecma.ordered p.2)) = members.map id :=
        List.map_congr_left fun p hp => Prod.ext rfl (h p hp).ordered
      rw [orderedMembers_eq, hsame, List.map_id]
    rw [Ecma.ordered, hmembers, propertyOrder_eq_self hindices]

theorem kept_texts (texts : List Text) : Kept (.arr (texts.map .str)) :=
  kept_arr (List.forall_mem_map.mpr fun t _ => kept_str t)

/-- The names of an object of fixed fields. -/
theorem kept_fields {members : List (Text × Value)} (names : List Text)
    (hnames : members.map Prod.fst = names) (hnodup : names.Nodup)
    (hindices : ∀ name ∈ names, arrayIndex? name = none) (h : ∀ p ∈ members, Kept p.2) :
    Kept (.obj members) :=
  kept_obj (hnames ▸ hnodup)
    (fun p hp => hindices p.1 (hnames ▸ List.mem_map_of_mem hp)) h

theorem kept_optionalField {name : Text} {t : Option Text} :
    ∀ p ∈ optionalField name t, Kept p.2 := by
  cases t with
  | none => exact nofun
  | some t => exact fun p hp => by rw [List.mem_singleton.mp hp]; exact kept_str t

theorem optionalField_names (name : Text) (t : Option Text) :
    ((optionalField name t).map Prod.fst).Sublist [name] := by
  cases t with
  | none => exact List.nil_sublist _
  | some t => exact List.Sublist.refl _

/-- The names that a row can have. -/
def claimNames : List Text :=
  [js "expectedPaths", js "tests", js "testDisposition", js "testReason"]
    ++ [js "verificationCriterion"] ++ [js "deviation"] ++ [js "fulfillment"] ++ [js "steps"]
    ++ [js "observableResult"]

theorem PlannedClaim.kept (claim : PlannedClaim) : Kept claim.toValue := by
  obtain ⟨expectedPaths, tests, disposition, reason, criterion, deviation, fulfillment, steps, observable⟩ :=
    claim
  unfold PlannedClaim.toValue
  have hsub : ∀ members : List (Text × Value), (members.map Prod.fst).Sublist claimNames →
      (∀ p ∈ members, Kept p.2) → Kept (.obj members) := by
    intro members hsub h
    refine kept_obj (hsub.nodup (by decide +kernel)) (fun p hp => ?_) h
    have hindices : ∀ name ∈ claimNames, arrayIndex? name = none := by decide +kernel
    exact hindices p.1 (hsub.subset (List.mem_map_of_mem hp))
  refine hsub _ ?_ ?_
  · simp only [List.map_append]
    refine ((((List.Sublist.refl _).append (optionalField_names _ _)).append (List.Sublist.refl _)).append
      (optionalField_names _ _)).append ?_ |>.append (optionalField_names _ _)
    split
    · exact List.nil_sublist _
    · exact List.Sublist.refl [js "steps"]
  · simp only [List.forall_mem_append, List.forall_mem_cons, List.not_mem_nil, false_implies,
      implies_true, and_true]
    refine ⟨⟨⟨⟨⟨⟨kept_texts _, kept_texts _, kept_str _, kept_nullable _⟩, kept_optionalField⟩,
      kept_nullable _⟩, kept_optionalField⟩, ?_⟩, kept_optionalField⟩
    split
    · exact nofun
    · exact fun p hp => by rw [List.mem_singleton.mp hp]; exact kept_texts _

theorem Operation.kept (operation : Operation) : Kept operation.toValue := by
  cases operation with
  | addRow id claim =>
      refine kept_fields [js "op", js "clauseId", js "claim"] rfl (by decide) (by decide +kernel) ?_
      simp only [List.forall_mem_cons, List.not_mem_nil, false_implies, implies_true, and_true]
      exact ⟨kept_str _, kept_str _, claim.kept⟩
  | addTest id test previous =>
      refine kept_fields [js "op", js "clauseId", js "test", js "previousClaimSha256"] rfl (by decide)
        (by decide +kernel) ?_
      simp only [List.forall_mem_cons, List.not_mem_nil, false_implies, implies_true, and_true]
      exact ⟨kept_str _, kept_str _, kept_str _, kept_str _⟩
  | removeLocation id path previous =>
      refine kept_fields [js "op", js "clauseId", js "path", js "previousClaimSha256"] rfl (by decide)
        (by decide +kernel) ?_
      simp only [List.forall_mem_cons, List.not_mem_nil, false_implies, implies_true, and_true]
      exact ⟨kept_str _, kept_str _, kept_str _, kept_str _⟩
  | replaceLocation id old new previous =>
      refine kept_fields [js "op", js "clauseId", js "from", js "to", js "previousClaimSha256"] rfl
        (by decide) (by decide +kernel) ?_
      simp only [List.forall_mem_cons, List.not_mem_nil, false_implies, implies_true, and_true]
      exact ⟨kept_str _, kept_str _, kept_str _, kept_str _, kept_str _⟩

/-- A positive integer is spelled by its text. -/
theorem spelled_of_integer {x : Number} {n : Int} (h : x.integer? = some n) (hne : n ≠ 0) :
    x.isFinite = true ∧ x.unsignedZero = x := by
  cases x with
  | nan => cases h
  | infinity negative => cases h
  | finite negative m e hc =>
      refine ⟨rfl, ?_⟩
      have hm : m ≠ 0 := by
        rintro rfl
        unfold Number.integer? at h
        dsimp only at h
        split at h <;> simp at h <;> exact hne h.symm
      unfold Number.unsignedZero
      simp [hm]

theorem unsignedZero_ofNat (n : Nat) : (Number.ofNat n).unsignedZero = Number.ofNat n := by
  have hround : ∀ num den, (roundFraction false num den).unsignedZero = roundFraction false num den := by
    intro num den
    unfold roundFraction
    dsimp only
    split_ifs <;> rfl
  unfold Number.ofNat ofDecimal
  split_ifs
  · rfl
  · exact hround _ _
  · exact hround _ _

/-- A file size is spelled by its text. -/
theorem spelled_ofNat {n : Nat} (h : isFileSize (Number.ofNat n) = true) :
    (Number.ofNat n).isFinite = true ∧ (Number.ofNat n).unsignedZero = Number.ofNat n := by
  refine ⟨?_, unsignedZero_ofNat n⟩
  unfold isFileSize at h
  cases hx : Number.ofNat n with
  | finite negative m e hc => rfl
  | nan =>
      rw [hx] at h
      cases h
  | infinity negative =>
      rw [hx] at h
      cases h

theorem kept_num {x : Number} (h : x.isFinite = true ∧ x.unsignedZero = x) : Kept (.num x) :=
  kept_leaf rfl h

theorem kept_generation {x : Number} (h : isPositiveInt x = true) : Kept (.num x) := by
  unfold isPositiveInt at h
  cases hx : x.integer? with
  | none =>
      rw [hx] at h
      cases h
  | some n =>
      rw [hx] at h
      simp only [Option.any_some, Bool.and_eq_true, decide_eq_true_eq] at h
      exact kept_num (spelled_of_integer hx (by omega))

theorem RowCorrection.kept {isUuid isDatetime : Text → Bool} {c : RowCorrection}
    (h : c.wellFormed isUuid isDatetime = true) : Kept c.toValue := by
  have hgeneration : isPositiveInt c.ownerGeneration = true := by
    simp only [RowCorrection.wellFormed, Bool.and_eq_true] at h
    exact h.1.1.1.1.1.1.1.1.1.1.2
  refine kept_fields rowNames rfl (by decide +kernel) (by decide +kernel) ?_
  simp only [List.forall_mem_cons, List.not_mem_nil, false_implies, implies_true, and_true]
  refine ⟨kept_str _, kept_str _, kept_str _, kept_generation hgeneration, kept_str _, ?_, kept_str _,
    kept_str _, kept_str _, kept_nullable _, kept_str _, kept_str _, kept_str _, kept_nullable _⟩
  exact kept_arr (List.forall_mem_map.mpr fun operation _ => operation.kept)

theorem EvidenceAmendment.kept {isDatetime : Text → Bool} {a : EvidenceAmendment}
    (h : a.wellFormed isDatetime = true) (hsize : a.reviewedSize.isFinite = true
      ∧ a.reviewedSize.unsignedZero = a.reviewedSize) : Kept a.toValue := by
  have hgeneration : isPositiveInt a.ownerGeneration = true := by
    simp only [EvidenceAmendment.wellFormed, Bool.and_eq_true] at h
    exact h.1.1.1.1.1.1.1.1.1.1.1.1.2
  have hfile : Kept (.obj [(js "sha256", .str a.reviewedSha256), (js "size", .num a.reviewedSize)]) := by
    refine kept_fields [js "sha256", js "size"] rfl (by decide) (by decide +kernel) ?_
    simp only [List.forall_mem_cons, List.not_mem_nil, false_implies, implies_true, and_true]
    exact ⟨kept_str _, kept_num hsize⟩
  refine kept_fields evidenceNames rfl (by decide +kernel) (by decide +kernel) ?_
  simp only [List.forall_mem_cons, List.not_mem_nil, false_implies, implies_true, and_true]
  exact ⟨kept_str _, kept_str _, kept_str _, kept_generation hgeneration, kept_str _, kept_str _,
    kept_str _, kept_str _, kept_str _, kept_str _, hfile, kept_str _, kept_str _, kept_str _,
    kept_str _, kept_str _, kept_str _, kept_bool _, kept_bool _⟩

/-- The amendments of a workflow, written to its file with two blanks and read back. -/
def reread (amendments : List Value) : Option (List Value) :=
  match parse (stringify (js "  ") (.arr amendments) ++ js "\n") with
  | some (.arr items) => some items
  | _ => none

/-- **What is recorded is read back from the workflow's file.** -/
theorem reread_eq {amendments : List Value} (h : ∀ v ∈ amendments, Kept v) :
    reread amendments = some amendments := by
  obtain ⟨hproper, hspelled, hordered⟩ := kept_arr h
  have hblank : ∀ u ∈ js "  ", isSpace u = true := List.all_eq_true.mp rfl
  have hend : ∀ u ∈ js "\n", isSpace u = true := List.all_eq_true.mp rfl
  unfold reread
  rw [parse_stringify hblank hproper hspelled hend, hordered]

end Verification

end SingularityFlow
