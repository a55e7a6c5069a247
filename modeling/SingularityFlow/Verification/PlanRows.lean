/-
# Corrections of a plan's rows

A correction adds rows and tests to an approved plan, or removes and replaces
paths of its rows.  `applyOperation` is one of its operations, applied to a plan;
the recording of a correction and every later reader apply the same one, and they
differ only in how they refuse it (`refuse`).

The digest of a row, the upper case of an id and the planner's own normalizer of
rows are parameters.
-/
import SingularityFlow.Verification.Contracts
import SingularityFlow.Lib.Collections

namespace SingularityFlow

open Ecma

namespace Verification

/-! ## Plans -/

/-- A bound claim map of a phase, as its readers have it. -/
structure Plan where
  phase : Text
  generation : Number
  planned : Bool
  amendment : Bool
  claims : List (Text × PlannedClaim)
  verificationContracts : Option (List Contract)
deriving DecidableEq

/-- `result.claims[id]`. -/
def Plan.claim (plan : Plan) (id : Text) : Option PlannedClaim := mapGet plan.claims id

/-- The contracts of a plan that may state none. -/
def Plan.contracts (plan : Plan) : List Contract := plan.verificationContracts.getD []

/-- `claims[id] = claim`: in its place, or at the end. -/
def setClaim (claims : List (Text × PlannedClaim)) (id : Text) (claim : PlannedClaim) :
    List (Text × PlannedClaim) :=
  if (mapGet claims id).isSome then claims.map fun row => if row.1 = id then (id, claim) else row
  else claims ++ [(id, claim)]

def Plan.setClaim (plan : Plan) (id : Text) (claim : PlannedClaim) : Plan :=
  { plan with claims := Verification.setClaim plan.claims id claim }

/-! ## Operations -/

inductive Operation where
  | addRow (clauseId : Text) (claim : PlannedClaim)
  | addTest (clauseId test previousClaimSha256 : Text)
  | removeLocation (clauseId path previousClaimSha256 : Text)
  | replaceLocation (clauseId old new previousClaimSha256 : Text)
deriving DecidableEq

def Operation.clauseId : Operation → Text
  | .addRow id _ | .addTest id _ _ | .removeLocation id _ _ | .replaceLocation id _ _ _ => id

/-- `[...new Set(values)].sort()`. -/
def sortedSet (values : List Text) : List Text := (distinct values).insertionSort LeUnits

/-- `needsPaths`. -/
def needsPaths (claim : PlannedClaim) : Bool := claim.fulfillment.any (· ≠ js "test-only")

def addedTest (index : Nat) : Text := js "added-test-" ++ natText index

/-- The first `added-test-<index>` that no slot has: one of the first names, more
than there are slots. -/
def freshAddedTest (used : List Text) : Text :=
  addedTest (((List.range (used.length + 1)).map (· + 1)).find?
    (fun index => addedTest index ∉ used) |>.getD (used.length + 2))

section Apply

variable (sha : PlannedClaim → Text) (toUpperCase : Text → Text) (refuse : Text → Failure)

/-- The criterion's stated contract takes the added test as a supporting witness. -/
def joinContract (plan : Plan) (id test : Text) : Except Failure Plan :=
  match plan.contracts.find? fun contract => contract.clauseId = id with
  | none => .ok plan
  | some stated => do
      let slot : Slot :=
        ⟨freshAddedTest (stated.slots.map Slot.slot), .test, .supporting, .path test, none⟩
      let contracts ← normalizeVerificationContracts toUpperCase (plan.contracts.map fun contract =>
        if contract.clauseId = id then { contract with slots := contract.slots ++ [slot] } else contract)
      return { plan with verificationContracts := some contracts }

/-- `applyOperation`, for the paths of a row. -/
def applyLocation (plan : Plan) (id : Text) (claim : PlannedClaim) (removed : Text)
    (added : Option Text) : Except Failure Plan := do
  failIf (removed ∉ claim.expectedPaths)
    (refuse (removed ++ js " is not an expected path of " ++ id ++ js "."))
  failIf (added.any (· ∈ claim.expectedPaths))
    (refuse (added.getD [] ++ js " is already an expected path of " ++ id ++ js "."))
  let next := claim.expectedPaths.filter (· ≠ removed) ++ added.toList
  failIf (next = [] ∧ needsPaths claim) (refuse (id ++ js " is " ++ claim.fulfillment.getD []
    ++ js ", so it keeps at least one expected path; replace the path instead of removing it."))
  return plan.setClaim id { claim with expectedPaths := sortedSet next }

/-- The row that an operation replaces. -/
def previousRow (plan : Plan) (id previousClaimSha256 : Text) : Except Failure PlannedClaim :=
  match plan.claim id with
  | none => .error (refuse (js "The plan has no row for " ++ id ++ js "."))
  | some claim =>
      if sha claim = previousClaimSha256 then .ok claim
      else .error (refuse (js "The plan row for " ++ id
        ++ js " is not the row this correction was decided against."))

/-- `applyOperation`. -/
def applyOperation (plan : Plan) : Operation → Except Failure Plan
  | .addRow id claim => do
      failIf ((plan.claim id).isSome) (refuse (js "The plan already has a row for " ++ id
        ++ js "; correct that row instead."))
      return plan.setClaim id claim
  | .addTest id test previous => do
      let claim ← previousRow sha refuse plan id previous
      failIf (claim.testDisposition = .nonTest) (refuse (id ++ js " is proven without executable tests; "
        ++ js "change its proof with an evidence correction or a new plan."))
      failIf (test ∈ claim.tests)
        (refuse (test ++ js " is already a planned test of " ++ id ++ js "."))
      joinContract toUpperCase
        (plan.setClaim id { claim with
          tests := sortedSet (claim.tests ++ [test]), testDisposition := .applicable, testReason := none })
        id test
  | .removeLocation id path previous => do
      let claim ← previousRow sha refuse plan id previous
      applyLocation refuse plan id claim path none
  | .replaceLocation id old new previous => do
      let claim ← previousRow sha refuse plan id previous
      applyLocation refuse plan id claim old (some new)

/-- The operations of a correction, one after another. -/
def applyOperations : Plan → List Operation → Except Failure Plan
  | plan, [] => .ok plan
  | plan, operation :: rest => do
      let next ← applyOperation sha toUpperCase refuse plan operation
      applyOperations next rest

end Apply

end Verification

end SingularityFlow
