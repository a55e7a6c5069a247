/-
# The table of verification contracts

`parseVerificationContracts` reads the table of a plan's section with that title,
line by line: a header, a divider, and one slot a row.  What is wrong with a row is
collected, and with anything collected there is no contract at all.

Fenced lines are examples.  `visibleLines` follows fences by the mark alone: a line
with three of the same mark closes a fence, whatever its indent, its length and what
stands behind it.
-/
import SingularityFlow.Verification.Contracts
import SingularityFlow.Markdown.Structure
import SingularityFlow.Lib.Json
import SingularityFlow.Lib.Words

namespace SingularityFlow

open Ecma

namespace Verification

/-! ## Lines -/

/-- The mark that a line opens or closes a fence with: `/^\s*(`{3,}|~{3,})/u`. -/
def fenceMark (line : Text) : Option UInt16 :=
  match line.dropWhile isTrimmed with
  | [] => none
  | u :: rest =>
      if (u = 0x60 || u = 0x7E) && 3 ≤ ((u :: rest).takeWhile (· = u)).length then some u else none

/-- A line behind a fence that is open or not, and the fence behind it. -/
def visibleLine (fence : Option UInt16) (line : Text) : Option UInt16 × Text :=
  match fenceMark line with
  | some mark =>
      match fence with
      | none => (some mark, [])
      | some opening => (if mark = opening then none else some opening, [])
  | none => (fence, if fence.isSome then [] else line)

def visibleFrom : Option UInt16 → List Text → List Text
  | _, [] => []
  | fence, line :: lines =>
      (visibleLine fence line).2 :: visibleFrom (visibleLine fence line).1 lines

/-- `visibleLines`. -/
def visibleLines (markdown : Text) : List Text := visibleFrom none (splitLines markdown)

/-- `cells`. -/
def cells (line : Text) : Option (List Text) :=
  let trimmed := trim line
  if trimmed.head? = some 0x7C ∧ trimmed.getLast? = some 0x7C then
    some (((trimmed.drop 1).dropLast.splitOn 0x7C).map trim)
  else none

/-- The text within one pair of marks, without the blanks around it. -/
def within (first last : UInt16) (value : Text) : Text :=
  if value.head? = some first ∧ value.getLast? = some last then trim ((value.drop 1).dropLast) else value

/-- `unwrap`. -/
def unwrap (cell : Text) : Text :=
  let value := trim cell
  let bare := if 1 < value.length ∧ 0x60 ∉ (value.drop 1).dropLast then within 0x60 0x60 value else value
  within 0x5B 0x5D bare

/-- The title of a heading: `/^(#{1,6})\s+(.+?)\s*#*\s*$/u`, trimmed. -/
def sectionTitle (line : Text) : Option Text :=
  let marks := (line.takeWhile (· = 0x23)).length
  let behind := line.drop marks
  let blanks := (behind.takeWhile isTrimmed).length
  if 1 ≤ marks ∧ marks ≤ 6 then
    ((List.range blanks).reverse.findSome? fun n => Markdown.shortestTitle (behind.drop (n + 1))).map trim
  else none

/-- `/^verification contracts$/iu`. -/
def namesSection (title : Text) : Bool := title.map foldUnit = js "verification contracts"

/-- What the Unicode tables and the order of `localeCompare` are asked for. -/
structure Locale where
  toLowerCase : Text → Text
  toUpperCase : Text → Text
  localeLe : Text → Text → Bool

def requiredColumns : List Text := [js "criterion", js "slot", js "method", js "witness"]

def optionalColumns : List Text := [js "role", js "required assurance", js "combination", js "reason"]

def headerNames (locale : Locale) (header : List Text) : List Text :=
  header.map fun cell => oneBlank (locale.toLowerCase cell)

def isHeader (names : List Text) : Bool :=
  joinWith (js "|") (names.take 4) = joinWith (js "|") requiredColumns
    && (names.drop 4).all (· ∈ optionalColumns) && decide names.Nodup

/-- `/^:?-{3,}:?$/u`. -/
def isDividerCell (cell : Text) : Bool :=
  let inner := if cell.head? = some 0x3A then cell.drop 1 else cell
  let dashes := inner.takeWhile (· = 0x2D)
  3 ≤ dashes.length && inner.drop dashes.length ∈ [[], js ":"]

def isDivider (names : List Text) (line : Text) : Bool :=
  match cells line with
  | none => false
  | some divider => divider.length = names.length && divider.all isDividerCell

/-! ## What is collected -/

/-- A finding of `collectDraftDiagnostic`, with the details that tell it from others. -/
structure Finding where
  message : Text
  line : Option Nat
  clauseId : Option Text
  field : Option Text
  actual : Option Text
  method : Option Text
deriving DecidableEq

def maxDraftDiagnostics : Nat := 256

/-- The findings, and how many there was no room for. -/
structure Report where
  findings : List Finding
  omitted : Nat
deriving DecidableEq

/-- `collectDraftDiagnostic`. -/
def Report.collect (report : Report) (finding : Finding) : Report :=
  if maxDraftDiagnostics ≤ report.findings.length then { report with omitted := report.omitted + 1 }
  else if finding ∈ report.findings then report
  else { report with findings := report.findings ++ [finding] }

def Report.collectAll (report : Report) (findings : List Finding) : Report :=
  findings.foldl Report.collect report

/-! ## The rows of the table -/

structure Row where
  line : Nat
  names : List Text
  cells : List Text
deriving DecidableEq

/-- `row.value(name)`. -/
def Row.value (row : Row) (name : Text) : Text :=
  match row.names.idxOf? name with
  | none => []
  | some index => row.cells.getD index []

/-- What a line of the table is read as. -/
inductive Scanned where
  | row (row : Row)
  | defect (finding : Finding)
deriving DecidableEq

def tableDefect (message : Text) (line : Nat) (field : String) : Scanned :=
  .defect ⟨message, some line, none, some (js field), none, none⟩

/-- Where the reader is: outside of the section, in it, at the divider of a table, or
at its rows. -/
inductive Place where
  | outside | inside
  | divider (names : List Text)
  | rows (names : List Text)
deriving DecidableEq

/-- A line that is not one of a table's rows. -/
def placeAt (inside : Bool) (line : Text) : Place :=
  match sectionTitle line with
  | some title => if namesSection title then .inside else .outside
  | none => if inside then .inside else .outside

/-- The lines from a number on, read one after another. -/
def scanLines (locale : Locale) : Place → Nat → List Text → List Scanned
  | _, _, [] => []
  | .divider names, line, _ :: rest => scanLines locale (.rows names) (line + 1) rest
  | .rows names, line, text :: rest =>
      match cells text with
      | none => scanLines locale (placeAt false text) (line + 1) rest
      | some found =>
          (if found.length = names.length then .row ⟨line, names, found⟩
            else tableDefect (js "Verification contract row at line " ++ natText line ++ js " must have "
              ++ natText names.length ++ js " columns.") line "row")
            :: scanLines locale (.rows names) (line + 1) rest
  | .outside, line, text :: rest => scanLines locale (placeAt false text) (line + 1) rest
  | .inside, line, text :: rest =>
      match sectionTitle text, cells text with
      | some _, _ | none, none => scanLines locale (placeAt true text) (line + 1) rest
      | none, some header =>
          let names := headerNames locale header
          if isHeader names = false then
            tableDefect (js "The verification contracts table at line " ++ natText line
              ++ js " must start with Criterion | Slot | Method | Witness and may add Role, Required assurance,"
              ++ js " Combination and Reason, each once.") line "header"
              :: scanLines locale .outside (line + 1) rest
          else if isDivider names (rest.headD []) = false then
            tableDefect (js "The verification contracts table at line " ++ natText line
              ++ js " must be followed by a Markdown divider row.") line "divider"
              :: scanLines locale .outside (line + 1) rest
          else scanLines locale (.divider names) (line + 1) rest

def Scanned.row? : Scanned → Option Row
  | .row found => some found
  | .defect _ => none

def Scanned.defect? : Scanned → Option Finding
  | .row _ => none
  | .defect finding => some finding

def scannedRows (scanned : List Scanned) : List Row := scanned.filterMap Scanned.row?

def scannedDefects (scanned : List Scanned) : List Finding := scanned.filterMap Scanned.defect?

/-! ## What a row says -/

/-- The values of backticks, and what stands around them: `/`([^`\n]+)`/gu`. -/
def codeSpans : List Text → List Text × Text
  | [] => ([], [])
  | [outer] => ([], outer)
  | outer :: value :: rest =>
      if value ≠ [] ∧ rest ≠ [] ∧ 0x0A ∉ value then
        let (values, behind) := codeSpans rest
        (value :: values, outer ++ behind)
      else
        let (values, behind) := codeSpans (value :: rest)
        (values, outer ++ 0x60 :: behind)

def isControl (u : UInt16) : Bool := u.toNat ≤ 0x1F || u = 0x7F

/-- `VERIFICATION_METHODS`. -/
def methodOf (t : Text) : Option Method :=
  if t = js "test" then some .test
  else if t = js "inspection" then some .inspection
  else if t = js "visual" then some .visual
  else none

def unsupportedMethods : List Text :=
  [js "measurement", js "analysis", js "browser-check", js "security-scan", js "operational", js "manual"]

def roleOf (t : Text) : Option Role :=
  if t = js "primary" then some .primary else if t = js "supporting" then some .supporting else none

def combinationOf (t : Text) : Option Combination :=
  if t = js "all" then some .all else if t = js "any" then some .any else none

/-- The values of `METHOD_ASSURANCE`. -/
def assuranceOf (t : Text) : Option Assurance :=
  if t = js "declared" then some .declared
  else if t = js "source-bound" then some .sourceBound
  else if t = js "module-observed" then some .moduleObserved
  else if t = js "exact-local-observed" then some .exactLocalObserved
  else none

/-- What a method can reach, in words. -/
def reachable : Method → Text
  | .test => js "module-observed or exact-local-observed for a test witness."
  | .inspection => js "declared or source-bound for a inspection witness."
  | .visual => js "declared or source-bound for a visual witness."

/-- `orElse`: the text of an optional column, or `none` where it is empty. -/
def unlessEmpty (t : Text) : Option Text := if t = [] then none else some t

/-- The values of a row, as they are read. -/
structure RowValues where
  clauseId : Text
  slot : Text
  method : Text
  role : Text
  requiredAssurance : Option Text
  combination : Option Text
  reason : Option Text

def rowValues (locale : Locale) (row : Row) : RowValues where
  clauseId := locale.toUpperCase (unwrap (row.value (js "criterion")))
  slot := locale.toLowerCase (unwrap (row.value (js "slot")))
  method := locale.toLowerCase (unwrap (row.value (js "method")))
  role := (unlessEmpty (locale.toLowerCase (unwrap (row.value (js "role"))))).getD (js "primary")
  requiredAssurance := unlessEmpty (locale.toLowerCase (unwrap (row.value (js "required assurance"))))
  combination := unlessEmpty (locale.toLowerCase (unwrap (row.value (js "combination"))))
  reason := unlessEmpty (trim (row.value (js "reason")))

def rowLabel (row : Row) : Text := js "Verification contract row at line " ++ natText row.line

section Checks

variable (row : Row) (values : RowValues)

/-- A finding of `check`. -/
def rowFinding (field : String) (message : Text) : Finding where
  message
  line := some row.line
  clauseId := if isAcId values.clauseId then some values.clauseId else none
  field := some (js field)
  actual := some (row.value (js field))
  method := none

def checkCriterion (known : List Text) : Option Finding :=
  if isAcId values.clauseId = false then
    some (rowFinding row values "criterion" (rowLabel row
      ++ js " must name one namespace-qualified acceptance criterion, such as ORDER:AC-001."))
  else if known ≠ [] ∧ values.clauseId ∉ known then
    some (rowFinding row values "criterion" (rowLabel row ++ js " names " ++ values.clauseId
      ++ js ", which is not a criterion of this Story."))
  else none

def checkSlotName : Option Finding :=
  if isSlotId values.slot then none
  else some (rowFinding row values "slot" (rowLabel row
    ++ js " needs a slot name of lowercase letters, digits and hyphens, such as unit or review."))

/-- The error has details of its own, which replace the criterion of the row. -/
def checkMethod : Option Finding :=
  match methodOf values.method with
  | some _ => none
  | none =>
      let message := rowLabel row ++
        if values.method ∈ unsupportedMethods then
          js " uses " ++ values.method ++ js ", which this repository cannot verify yet; use test, inspection,"
            ++ js " visual, or record a risk decision when the Story ends."
        else js " must use one method of test, inspection, visual."
      some { rowFinding row values "method" message with
        clauseId := some values.clauseId, method := some values.method }

def checkRole : Option Finding :=
  match roleOf values.role with
  | some _ => none
  | none => some (rowFinding row values "role" (rowLabel row ++ js " must be primary or supporting."))

/-- The names that `METHOD_ASSURANCE[method]` finds on the prototype. -/
def inheritedMethods : List Text := [js "constructor", js "__proto__"]

def checkAssurance : Option Finding :=
  match values.requiredAssurance with
  | none => none
  | some required =>
      if required = js "exact-authenticated" then
        some (rowFinding row values "required assurance" (rowLabel row
          ++ js " requires exact-authenticated, which needs qualified execution this repository does not have;"
          ++ js " require exact-local-observed or less."))
      else
        match assuranceOf required with
        | none =>
            some (rowFinding row values "required assurance" (rowLabel row
              ++ js " requires a known assurance value, not scenario or reviewer prose."))
        | some assurance =>
            match methodOf values.method with
            | some method =>
                if assurance ∈ methodAssurance method then none
                else some (rowFinding row values "required assurance" (rowLabel row
                  ++ js " may require only " ++ reachable method))
            | none =>
                if values.method ∈ inheritedMethods then
                  some (rowFinding row values "required assurance"
                    (js "METHOD_ASSURANCE[method].includes is not a function"))
                else none

def checkCombination : Option Finding :=
  match values.combination with
  | none => none
  | some combination =>
      match combinationOf combination with
      | some _ => none
      | none =>
          some (rowFinding row values "combination" (rowLabel row ++ js " must combine with all or any."))

def checkReason : Option Finding :=
  match values.reason with
  | none => none
  | some reason =>
      if reason.length < 10 ∨ 500 < reason.length ∨ reason.any isControl then
        some (rowFinding row values "reason" (rowLabel row ++ js " needs a reason of 10 to 500 characters."))
      else none

/-- `witnessCell`. -/
def witnessCell (method : Method) (cell label : Text) : Except Text SlotWitness :=
  let (found, rest) := codeSpans ((trim cell).splitOn 0x60)
  match found, trim rest with
  | [value], [] =>
      match method with
      | .visual =>
          let target := trim value
          if target = [] ∨ 200 < target.length ∨ target.any isControl then
            .error (label ++ js " must name the screen or scenario its visual evidence shows, in at most 200"
              ++ js " characters.")
          else .ok (.target target)
      | _ =>
          if isExactPath value then .ok (.path value)
          else .error (label ++ js " must be one exact repository-relative path in backticks.")
  | _, _ => .error (label ++ js " must name exactly one witness in backticks.")

def witnessOf (method : Method) : Except Text SlotWitness :=
  witnessCell method (row.value (js "witness")) (rowLabel row ++ js "'s witness")

/-- The witness is read where the method is known. -/
def checkWitness : Option Finding :=
  match methodOf values.method with
  | none => none
  | some method =>
      match witnessOf row method with
      | .ok _ => none
      | .error message => some (rowFinding row values "witness" message)

/-- The checks of a row, in their order. -/
def rowFindings (known : List Text) : List Finding :=
  [checkCriterion row values known, checkSlotName row values, checkMethod row values, checkRole row values,
    checkAssurance row values, checkCombination row values, checkReason row values,
    checkWitness row values].filterMap id

/-- The slot of a row that has passed its checks. -/
def rowSlot : Option Slot := do
  let method ← methodOf values.method
  let role ← roleOf values.role
  let witness ← (witnessOf row method).toOption
  return ⟨values.slot, method, role, witness, values.requiredAssurance.bind assuranceOf⟩

end Checks

/-! ## The contracts of a table -/

/-- What the rows of a criterion come to. -/
structure Gathered where
  clauseId : Text
  combinations : List Combination
  reasons : List Text
  slots : List Slot
deriving DecidableEq

/-- What the rows read so far come to. -/
structure Draft where
  report : Report
  byClause : List Gathered

/-- `byClause.get(clauseId)`, or a criterion without rows. -/
def gatheredOf (byClause : List Gathered) (clauseId : Text) : Gathered :=
  (byClause.find? fun gathered => gathered.clauseId = clauseId).getD ⟨clauseId, [], [], []⟩

/-- `byClause.set(clauseId, gathered)`. -/
def setGathered (byClause : List Gathered) (gathered : Gathered) : List Gathered :=
  if byClause.any fun other => other.clauseId = gathered.clauseId then
    byClause.map fun other => if other.clauseId = gathered.clauseId then gathered else other
  else byClause ++ [gathered]

def Gathered.add (gathered : Gathered) (values : RowValues) (slot : Slot) : Gathered where
  clauseId := gathered.clauseId
  combinations := match values.combination.bind combinationOf with
    | none => gathered.combinations
    | some combination =>
        if combination ∈ gathered.combinations then gathered.combinations
        else gathered.combinations ++ [combination]
  reasons := gathered.reasons ++ values.reason.toList
  slots := gathered.slots ++ [slot]

def repeatedSlot (row : Row) (clauseId slot : Text) : Finding where
  message := clauseId ++ js " names slot " ++ slot ++ js " more than once."
  line := some row.line
  clauseId := some clauseId
  field := some (js "slot")
  actual := none
  method := none

/-- What one row adds. -/
def readRow (locale : Locale) (known : List Text) (draft : Draft) (row : Row) : Draft :=
  let values := rowValues locale row
  match rowFindings row values known, rowSlot row values with
  | [], some slot =>
      let gathered := gatheredOf draft.byClause values.clauseId
      if gathered.slots.any fun other => other.slot = slot.slot then
        { draft with report := draft.report.collect (repeatedSlot row values.clauseId slot.slot) }
      else { draft with byClause := setGathered draft.byClause (gathered.add values slot) }
  | findings, _ => { draft with report := draft.report.collectAll findings }

def contractFinding (clauseId message : Text) : Finding where
  message
  line := none
  clauseId := some clauseId
  field := some (js "contract")
  actual := none
  method := none

/-- The first test slot that the plan of its criterion does not allow. -/
def unplanned (gathered : Gathered) (planned : Option PlannedClaim) : Option Text :=
  (gathered.slots.filter Slot.isTest).findSome? fun slot =>
    match planned with
    | none => none
    | some claim =>
        if claim.testDisposition = .notApplicable ∨ claim.testDisposition = .nonTest then
          some (gathered.clauseId ++ js " plans no tests ("
            ++ (if claim.testDisposition = .nonTest then js "non-test" else js "not-applicable")
            ++ js "), so its slot " ++ slot.slot ++ js " cannot be a test.")
        else if claim.tests ≠ [] ∧ ∀ path ∈ slot.witness.path?, path ∉ claim.tests then
          some (gathered.clauseId ++ js "'s test slot " ++ slot.slot ++ js " names "
            ++ slot.witness.path?.getD [] ++ js ", which is not among its planned tests ("
            ++ joinWith (js ", ") claim.tests ++ js ").")
        else none

/-- The contract of a criterion, or what is wrong with it. -/
def contractOf (locale : Locale) (plannedClaims : Text → Option PlannedClaim) (gathered : Gathered) :
    Except Finding Contract :=
  let refuse message := .error (contractFinding gathered.clauseId (gathered.clauseId ++ message))
  let combination := gathered.combinations.headD .all
  if 1 < gathered.combinations.length then
    refuse (js " combines its witnesses with both all and any; choose one.")
  else if combination = .any ∧ gathered.reasons = [] then
    refuse (js " accepts any of its witnesses; say why one alternative is enough with a Reason, so the plan's"
      ++ js " reviewer decides it.")
  else if gathered.slots.all (fun slot => !slot.isPrimary) then
    refuse (js " has only supporting witnesses; a supporting witness never verifies a criterion, so name at"
      ++ js " least one primary witness.")
  else
    match unplanned gathered (plannedClaims gathered.clauseId) with
    | some message => .error (contractFinding gathered.clauseId message)
    | none => .ok {
        clauseId := gathered.clauseId
        combination
        reason := if gathered.reasons = [] then none else some (joinWith (js " ") gathered.reasons)
        slots := gathered.slots.insertionSort fun left right => locale.localeLe left.slot right.slot = true }

/-- The contracts, and the findings of those that are wrong. -/
def contractsOf (locale : Locale) (plannedClaims : Text → Option PlannedClaim) (draft : Draft) :
    Report × List Contract :=
  let sorted := draft.byClause.insertionSort fun left right =>
    locale.localeLe left.clauseId right.clauseId = true
  let inspected := sorted.map (contractOf locale plannedClaims)
  (draft.report.collectAll (inspected.filterMap fun result => match result with
    | .ok _ => none
    | .error finding => some finding), inspected.filterMap Except.toOption)

/-! ## The whole text -/

/-- What a plan is checked against: its criteria, its planned claims in the order of
their ids, and what its prose declares, a criterion, a method and a line each. -/
structure PlanContext where
  clauseIds : List Text
  plannedClaims : List (Text × PlannedClaim)
  declarations : List (Text × Method × Nat)

def PlanContext.planned (context : PlanContext) (clauseId : Text) : Option PlannedClaim :=
  (context.plannedClaims.find? fun entry => entry.1 = clauseId).map Prod.snd

/-- A criterion has a primary slot with one of some methods. -/
def hasPrimary (contracts : List Contract) (clauseId : Text) (methods : List Method) : Bool :=
  contracts.any fun contract => contract.clauseId = clauseId
    && contract.primary.any fun slot => slot.method ∈ methods

/-- Retained evidence asks for a primary visual or inspection slot. -/
def evidenceFindings (context : PlanContext) (contracts : List Contract) : List Finding :=
  context.plannedClaims.filterMap fun (clauseId, claim) =>
    if claim.fulfillment = some (js "evidence") ∧ isAcId clauseId
        ∧ hasPrimary contracts clauseId [.inspection, .visual] = false then
      some ⟨clauseId ++ js " delivers retained evidence: name a primary visual or inspection contract; file"
        ++ js " presence alone cannot verify the criterion.", none, some clauseId, some (js "primaryWitness"),
        none, none⟩
    else none

def methodText : Method → Text
  | .test => js "test"
  | .inspection => js "inspection"
  | .visual => js "visual"

/-- What prose declares asks for a slot in the table. -/
def proseFindings (context : PlanContext) (contracts : List Contract) : List Finding :=
  context.declarations.filterMap fun (clauseId, method, line) =>
    if hasPrimary contracts clauseId [method] then none
    else some ⟨clauseId ++ js " declares a primary " ++ methodText method
      ++ js " contract in prose, but has no matching primary slot in the Verification contracts table. Prose"
      ++ js " never replaces the structured verification contract.", some line, some clauseId,
      some (js "primaryWitness"), none, none⟩

/-- The table that is read from lines. -/
def readTable (locale : Locale) (context : PlanContext) (supplied : Report) (lines : List Text) :
    Report × Except Failure (List Contract) :=
  let scanned := scanLines locale .outside 1 lines
  let report := supplied.collectAll (scannedDefects scanned)
  if maxRows < (scannedRows scanned).length then
    (report, .error (contractInvalid (js "A plan may state at most 1000 verification contract rows.")))
  else
    let known := (context.clauseIds.map locale.toUpperCase).dedup
    let draft := (scannedRows scanned).foldl (readRow locale known) ⟨report, []⟩
    let (report, contracts) := contractsOf locale context.planned draft
    let report := report.collectAll (evidenceFindings context contracts ++ proseFindings context contracts)
    (report, .ok (if report.findings = [] then contracts else []))

/-- `parseVerificationContracts`, with diagnostics that the caller supplies; without
them the first of those that are found is thrown. -/
def parseVerificationContracts (locale : Locale) (context : PlanContext) (supplied : Option Report)
    (markdown : Text) : Report × Except Failure (List Contract) :=
  let (report, result) := readTable locale context (supplied.getD ⟨[], 0⟩) (visibleLines markdown)
  match supplied, report.findings, result with
  | none, first :: _, .ok _ => (report, .error (contractInvalid first.message))
  | _, _, _ => (report, result)

end Verification

end SingularityFlow
