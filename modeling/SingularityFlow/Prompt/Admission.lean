/-
# Token admission

A count of tokens comes with the word of whoever counted.  Only a count that a
tokenizer, the provider or the host gave, or an upper bound that the policy
approves, is evidence for a refusal; what is estimated from octets is not.

The admission of a prompt adds the prompt, the reserve and the history.  It
says yes or no when all three are evidence and there is a limit, and otherwise
nothing.
-/
import SingularityFlow.Errors
import SingularityFlow.Lib.ByteLength

namespace SingularityFlow

open Ecma

namespace Prompt

/-- `TOKEN_ADMISSION_ASSURANCES`. -/
inductive Assurance where
  | tokenizerExact
  | providerReported
  | hostObserved
  | conservativeUpperBound
  | estimated
  | unavailable
deriving DecidableEq

def Assurance.text : Assurance → Text
  | .tokenizerExact => js "tokenizer-exact"
  | .providerReported => js "provider-reported"
  | .hostObserved => js "host-observed"
  | .conservativeUpperBound => js "conservative-upper-bound"
  | .estimated => js "estimated"
  | .unavailable => js "unavailable"

def assurances : List Assurance :=
  [.tokenizerExact, .providerReported, .hostObserved, .conservativeUpperBound, .estimated,
    .unavailable]

/-- A word of the list, when the value is one. -/
def assurance? : Value → Option Assurance
  | .str t => assurances.find? fun a => a.text = t
  | _ => none

/-- A count and who gave it. -/
structure Metric where
  value : Option Nat
  assurance : Assurance
deriving DecidableEq

def noMetric : Metric := ⟨none, .unavailable⟩

def admissionInvalid (message : Text) : Failure :=
  .singularityFlow message (some (js "TKN_ADMISSION_INVALID"))

/-- `value == null`. -/
def isNullish : Option Value → Bool
  | none | some .null => true
  | _ => false

def metric (value : Option Value) (assurance : Option Assurance) (label : Text) :
    Except Failure Metric :=
  match assurance with
  | none => .error (admissionInvalid (label ++ js ".assurance must be "
      ++ joinWith (js ", ") (assurances.map Assurance.text) ++ js "."))
  | some assurance =>
      match value with
      | none | some .null => .ok noMetric
      | some (.num x) =>
          match x.safeSize? with
          | some n => .ok ⟨some n, assurance⟩
          | none => .error (admissionInvalid
              (label ++ js ".value must be a non-negative integer or null."))
      | some _ => .error (admissionInvalid
          (label ++ js ".value must be a non-negative integer or null."))

/-- `Number.isSafeInteger`. -/
def isSafeInteger (x : Number) : Bool := x.integer?.any fun i => i.natAbs < 2 ^ 53

/-- A bare number has no provenance: it counts as estimated. -/
def normalizedMetric (value : Option Value) (fallback : Metric) (label : Text) :
    Except Failure Metric :=
  match value with
  | none | some .null => .ok fallback
  | some (.num x) =>
      if isSafeInteger x then metric (some (.num x)) (some .estimated) label
      else .error (admissionInvalid (label ++ js " must be a token metric object."))
  | some (.obj members) =>
      let inner := lookup (js "value") members
      match lookup (js "assurance") members with
      | none | some .null =>
          metric inner (some (if isNullish inner then .unavailable else .estimated)) label
      | some assurance => metric inner (assurance? assurance) label
  | some _ => .error (admissionInvalid (label ++ js " must be a token metric object."))

/-- `options.tokenAdmission`. -/
structure TokenAdmission where
  logicalPromptTokens : Option Value
  systemAndToolReserveTokens : Option Value
  historyTokens : Option Value
  maximumInputTokens : Option Value
  policyApprovedConservativeUpperBound : Bool

def enforceable (m : Metric) (policyApprovedConservativeUpperBound : Bool) : Bool :=
  m.value.isSome && match m.assurance with
    | .tokenizerExact | .providerReported | .hostObserved => true
    | .conservativeUpperBound => policyApprovedConservativeUpperBound
    | .estimated | .unavailable => false

structure Admission where
  logicalPromptBytes : Nat
  logicalPromptTokens : Metric
  systemAndToolReserveTokens : Metric
  historyTokens : Metric
  maximumInputTokens : Option Nat
  safeToEnforce : Bool
  admitted : Option Bool
deriving DecidableEq

/-- The sum of three safe integers is above every limit once it is rounded, so
it is compared exactly. -/
def assessTokenAdmission (logicalPromptBytes : Nat) (supplied : TokenAdmission) :
    Except Failure Admission := do
  let estimated : Metric := ⟨some ((logicalPromptBytes + 3) / 4), .estimated⟩
  let prompt ← normalizedMetric supplied.logicalPromptTokens estimated (js "logicalPromptTokens")
  let reserve ← normalizedMetric supplied.systemAndToolReserveTokens noMetric
    (js "systemAndToolReserveTokens")
  let history ← normalizedMetric supplied.historyTokens noMetric (js "historyTokens")
  let all := [prompt, reserve, history]
  let safeToEnforce := all.all (enforceable · supplied.policyApprovedConservativeUpperBound)
  let limit ← metric supplied.maximumInputTokens (some .providerReported)
    (js "maximumInputTokens")
  return {
    logicalPromptBytes
    logicalPromptTokens := prompt
    systemAndToolReserveTokens := reserve
    historyTokens := history
    maximumInputTokens := limit.value
    safeToEnforce
    admitted := match limit.value with
      | some limit =>
          if safeToEnforce then some ((all.filterMap Metric.value).sum ≤ limit) else none
      | none => none }

end Prompt

end SingularityFlow
