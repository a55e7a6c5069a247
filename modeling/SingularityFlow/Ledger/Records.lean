/-
# Records of the capability ledger

A record is a JSON object with a schema version.  Its identity is the SHA-256
of its canonical text, which sorts the members of every object by name and
has no display spaces.  An act is told apart by its idempotency key: work
item, event, phase, generation and the commit that was published.
-/
import SingularityFlow.Errors
import SingularityFlow.Lib.Coercion
import SingularityFlow.Lib.Json
import SingularityFlow.Lib.Sha256

namespace SingularityFlow

open Ecma Ecma.Value

namespace Ledger

/-! ## Identity -/

mutual

/-- `canonicalize`: the members of every object by name. -/
def canonicalize : Value → Value
  | .arr items => .arr (canonicalizeItems items)
  | .obj members => .obj (sortMembers (canonicalizeMembers members))
  | v => v

def canonicalizeItems : List Value → List Value
  | [] => []
  | v :: rest => canonicalize v :: canonicalizeItems rest

def canonicalizeMembers : List (Text × Value) → List (Text × Value)
  | [] => []
  | (name, v) :: rest => (name, canonicalize v) :: canonicalizeMembers rest

end

/-- `compactCanonicalJson`. -/
def canonicalJson (v : Value) : Text := stringify [] (canonicalize v) ++ js "\n"

def sha256 (text : Text) : Text := sha256Hex (textEncode text)

/-- The hash that names the entry. -/
def entryHash (entry : Value) : Text := sha256 (canonicalJson entry)

/-! ## Reading a record -/

def currentSchemaVersion : Nat := 1

/-- A refusal with a code, in the words of `readRecord`. -/
def recordFailure (message : Text) (code : String) : Failure :=
  .singularityFlow message (some (js code))

/-- `readRecord('ledger-entry', text).record`.  The family is frozen at its
first version, so a record is never migrated; what the engine says about a
text that is no JSON is left out of the message. -/
def readRecord (contents : Text) : Except Failure Value :=
  match parse contents with
  | some (.obj members) =>
      let received := lookup (js "schemaVersion") members
      match received with
      | some (.num version) =>
          match version.integer? with
          | some (.ofNat (n + 1)) =>
              if currentSchemaVersion < n + 1 then
                .error (recordFailure (js "Durable record 'ledger-entry' is stored at schema version "
                  ++ natText (n + 1) ++ js " (v" ++ natText (n + 1)
                  ++ js "), above this build's readable range v1–v1; it was written by a newer sflow — upgrade to read it.")
                  "SCHEMA_VERSION_FUTURE")
              else .ok (.obj members)
          | _ => .error (recordFailure
              (js "Durable record 'ledger-entry' has no valid schemaVersion.") "SCHEMA_VERSION_MISSING")
      | _ => .error (recordFailure
          (js "Durable record 'ledger-entry' has no valid schemaVersion.") "SCHEMA_VERSION_MISSING")
  | _ => .error (recordFailure (js "Durable record is not valid JSON: ") "SCHEMA_RECORD_INVALID")

/-- `value.name`, which throws on undefined and null. -/
def property (v : Option Value) (name : Text) : Except Failure (Option Value) :=
  match v with
  | none => .error (.typeError (js "Cannot read properties of undefined (reading '" ++ name ++ js "')"))
  | some .null => .error (.typeError (js "Cannot read properties of null (reading '" ++ name ++ js "')"))
  | some v => .ok (v.member? name)

/-- `value?.name`. -/
def optionalProperty (v : Option Value) (name : Text) : Option Value := v.bind (member? name)

/-! ## Idempotency -/

/-- What `ledgerIdempotencyKey` returns. -/
structure IdempotencyKey where
  value : Text
  hash : Text
deriving DecidableEq

/-- A unit that `[0-9a-f]` matches when case is ignored. -/
def isHexUnit (u : UInt16) : Bool := (radixDigit? 16 u).isSome

def ledgerIdempotencyKey (intent : Value) (publishedCommit : Option Value) :
    Except Failure IdempotencyKey :=
  let sourceCommit := trim (orElse publishedCommit (.str [])).toText
  if !(40 ≤ sourceCommit.length && sourceCommit.length ≤ 64 && sourceCommit.all isHexUnit) then
    .error (refuse (js "Ledger publication requires a full source commit SHA."))
  else do
    let subject := intent.member? (js "subject")
    let workId ← property subject (js "workId")
    let value := joinWith (js " · ") [
      joinedText workId,
      joinedText (intent.member? (js "eventType")),
      (orElse (optionalProperty subject (js "phase")) (.str (js "-"))).toText,
      (orElse (optionalProperty subject (js "generation")) (.str (js "-"))).toText,
      sourceCommit.map lowerAscii]
    return { value, hash := sha256 value }

/-- The hash of a key is the hash of its value. -/
theorem ledgerIdempotencyKey_hash {intent : Value} {publishedCommit : Option Value}
    {key : IdempotencyKey} (h : ledgerIdempotencyKey intent publishedCommit = .ok key) :
    key.hash = sha256 key.value := by
  unfold ledgerIdempotencyKey at h
  dsimp only at h
  split at h
  · cases h
  · obtain ⟨workId, -, h⟩ := bind_eq_ok_iff.mp h
    obtain rfl := Except.ok.inj h
    rfl

/-! ## Paths -/

def jsonSuffix : Text := js ".json"

/-- `file.endsWith('.json')`. -/
def isJsonFile (file : Text) : Bool := jsonSuffix.isSuffixOf file

/-- `path.posix.basename(file, '.json')`, of a path that ends so. -/
def jsonBasename (file : Text) : Text :=
  let name := (file.reverse.takeWhile (· ≠ 0x2F)).reverse
  if file = jsonSuffix then []
  else if name = jsonSuffix then name
  else name.take (name.length - jsonSuffix.length)

/-- `idempotencyPath`; `safeSegment` leaves the digits of a hash as they are. -/
def idempotencyPath (hash : Text) : Text := js "ledger/idempotency/" ++ hash ++ jsonSuffix

theorem isJsonFile_idempotencyPath (hash : Text) : isJsonFile (idempotencyPath hash) = true :=
  List.isSuffixOf_iff_suffix.mpr (List.suffix_append _ _)

end Ledger

end SingularityFlow
