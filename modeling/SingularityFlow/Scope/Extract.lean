/-
# Normative statements

`extractNormativeStatements` goes over the lines of a source and reports what is a
requirement by its structure: the items and the rows under a normative heading,
scenarios, and sentences with a strong modal.  Fenced lines and comments are skipped
by two flags, which the first units of a line set.
-/
import SingularityFlow.Lib.Words
import SingularityFlow.Lib.Json
import SingularityFlow.Lib.Sha256
import SingularityFlow.Lib.Utf8

namespace SingularityFlow

open Ecma

namespace Scope

/-! ## Statements -/

/-- A run of units of a kind, and what stands behind it. -/
def runOf (kind : UInt16 → Bool) (t : Text) : Text × Text := (t.takeWhile kind, t.dropWhile kind)

/-- The text behind one unit. -/
def behindUnit (u : UInt16) : Text → Option Text
  | [] => none
  | v :: rest => if v = u then some rest else none

def isAnchorUnit (u : UInt16) : Bool := isUpperAscii u || isDigit u || u = 0x5F || u = 0x2D

/-- The text behind `ANCHOR`. -/
def anchorAt (t : Text) : Option Text := do
  let name ← behindUnit 0x5B t
  let (first, rest) := runOf isAnchorUnit name
  if first.head?.any (fun u => isUpperAscii u || isDigit u) then
    let kind ← behindUnit 0x3A rest
    let (letters, rest) := runOf isUpperAscii kind
    let number ← behindUnit 0x2D rest
    let (digits, rest) := runOf isDigit number
    if letters ≠ [] ∧ digits ≠ [] then behindUnit 0x5D rest else none
  else none

/-- `HAS_ANCHOR.test(t)`. -/
def hasAnchor (t : Text) : Bool := t.tails.any fun rest => (anchorAt rest).isSome

def isBoxUnit (u : UInt16) : Bool := u = 0x78 || u = 0x58 || u = 0x20

/-- `\s?[xX ]?\s?`, all of a text. -/
def isBox : Text → Bool
  | [] => true
  | [u] => isTrimmed u || isBoxUnit u
  | [u, v] => (isTrimmed u && (isBoxUnit v || isTrimmed v)) || (isBoxUnit u && isTrimmed v)
  | [u, v, w] => isTrimmed u && isBoxUnit v && isTrimmed w
  | _ => false

/-- The text behind a checkbox: `/\[\s?[xX ]?\s?\]/u`. -/
def boxAt (t : Text) : Option Text := do
  let inner ← behindUnit 0x5B t
  let (mark, rest) := runOf (· ≠ 0x5D) inner
  if isBox mark then behindUnit 0x5D rest else none

/-- What stands behind the number or the sign of a list item. -/
def behindMarker (signs : List UInt16) : Text → Option Text
  | [] => none
  | u :: rest =>
      if u ∈ signs then some rest
      else
        let (digits, behind) := runOf isDigit (u :: rest)
        if digits = [] then none
        else
          match behind with
          | [] => none
          | v :: rest => if v = 0x2E ∨ v = 0x29 then some rest else none

/-- What stands behind a marker with white space behind it. -/
def behindItem (signs : List UInt16) (t : Text) : Option Text :=
  (behindMarker signs t).bind fun rest =>
    if rest.head?.any isTrimmed then some (rest.dropWhile isTrimmed) else none

def isDash (u : UInt16) : Bool := u = 0x2014 || u = 0x2013 || u = 0x2D

/-- `normalizeStatement`. -/
def normalizeStatement (tables : UnicodeTables) (text : Text) : Text :=
  let bare := blankMatches anchorAt text.length text
  let bare := bare.map fun u => if u ∈ js "`*_>#|" then 0x20 else u
  let bare := (behindItem [0x2D, 0x2B] (bare.dropWhile isTrimmed)).getD bare
  let bare := trim (oneBlank (blankMatches boxAt bare.length bare))
  let bare := if bare.head?.any isDash then (bare.dropWhile isDash).dropWhile isTrimmed else bare
  let bare := (bare.reverse.dropWhile (· ∈ js ".;:,!")).reverse
  tables.toLocaleLowerCase bare

/-- `sentences`, before they are trimmed: a sentence ends at white space between
`[.!?]` and `[A-Z0-9"'(]`. -/
def splitSentences : Nat → Option UInt16 → Text → List Text
  | 0, _, t => [t]
  | _, _, [] => [[]]
  | fuel + 1, before, u :: rest =>
      let behind := (u :: rest).dropWhile isTrimmed
      if isTrimmed u ∧ before.any (· ∈ js ".!?") ∧
          behind.head?.any (fun v => isUpperAscii v || isDigit v || v ∈ js "\"'(") then
        [] :: splitSentences fuel none behind
      else
        match splitSentences fuel (some u) rest with
        | [] => [[u]]
        | first :: others => (u :: first) :: others

def sentences (text : Text) : List Text :=
  ((splitSentences (text.length + 1) none text).map trim).filter (· ≠ [])

/-! ## Lines -/

/-- `STRONG_MODAL`. -/
def strongModal (t : Text) : Bool :=
  hasPhrase [[js "must"], [js "must", js "not"], [js "shall"], [js "shall", js "not"],
    [js "is", js "required", js "to"], [js "are", js "required", js "to"],
    [js "cannot", js "be", js "allowed"]] t

/-- `SCENARIO`. -/
def isScenario (t : Text) : Bool :=
  startsPhrase [[js "given"], [js "when"], [js "then"]] (t.dropWhile isTrimmed)

/-- `NORMATIVE_HEADING`. -/
def normativeHeading (t : Text) : Bool :=
  hasPhrase [[js "requirement"], [js "requirements"], [js "acceptance", js "criteria"], [js "constraint"],
    [js "constraints"], [js "must", js "have"], [js "must", js "haves"]] t

/-- `(.+)$`: a text that is not empty, and on one line. -/
def wholeLine (t : Text) : Option Text :=
  if t = [] ∨ t.any (fun u => u = 0x0A || u = 0x0D || u = 0x2028 || u = 0x2029) then none else some t

/-- `/^#{1,6}\s+(.+)$/u`: the title. -/
def headingTitle (trimmed : Text) : Option Text :=
  let (marks, rest) := runOf (· = 0x23) trimmed
  if 1 ≤ marks.length ∧ marks.length ≤ 6 ∧ rest.head?.any isTrimmed then wholeLine (rest.dropWhile isTrimmed)
  else none

/-- `/^\|?\s*:?-{3,}/u`. -/
def isSeparator (trimmed : Text) : Bool :=
  let rest := ((behindUnit 0x7C trimmed).getD trimmed).dropWhile isTrimmed
  (js "---").isPrefixOf ((behindUnit 0x3A rest).getD rest)

/-- `/^(?:[-+*]|\d+[.)])\s+(.+)$/u`: what the item says. -/
def listItem (trimmed : Text) : Option Text := (behindItem [0x2D, 0x2B, 0x2A] trimmed).bind wholeLine

/-- The cells of a table row, one text; an empty one is none. -/
def tableRow (trimmed : Text) : Option Text :=
  match behindUnit 0x7C trimmed with
  | none => none
  | some rest =>
      let row := joinWith (js " — ") ((((chomp 0x7C rest).splitOn 0x7C).map trim).filter (· ≠ []))
      if row = [] then none else some row

/-- The header row of a table names its columns. -/
def isHeaderRow (trimmed : Text) : Bool :=
  startsPhrase [[js "clause"], [js "id"], [js "criterion"], [js "requirement"]]
      (((behindUnit 0x7C trimmed).getD trimmed).dropWhile isTrimmed)
    && !hasAnchor trimmed

inductive Signal where
  | structured | scenario | modal
deriving DecidableEq

/-- What a line that is read says: the section behind it is normative, and its statements. -/
structure LineReading where
  normative : Bool
  statements : List (Text × Signal)
deriving DecidableEq

/-- A line outside of fences and comments. -/
def readLine (normative : Bool) (trimmed : Text) : LineReading :=
  match headingTitle trimmed with
  | some title => ⟨normativeHeading title, []⟩
  | none =>
      if trimmed = [] ∨ isSeparator trimmed then ⟨normative, []⟩
      else
        match normative, listItem trimmed, tableRow trimmed with
        | true, some item, row =>
            if row.isSome ∧ isHeaderRow trimmed then ⟨normative, []⟩
            else ⟨normative, [(item, .structured)]⟩
        | true, none, some row =>
            if isHeaderRow trimmed then ⟨normative, []⟩ else ⟨normative, [(row, .structured)]⟩
        | _, item, _ =>
            if isScenario trimmed then ⟨normative, [(trimmed, .scenario)]⟩
            else ⟨normative, ((sentences (item.getD trimmed)).filter strongModal).map fun sentence =>
              (sentence, .modal)⟩

/-! ## The source -/

structure Found where
  sourceId : Text
  line : Nat
  text : Text
  statementSha256 : Text
  signal : Signal
deriving DecidableEq

/-- What the reader is given: the Unicode tables, and the name of the source. -/
structure Reader where
  tables : UnicodeTables
  sourceId : Text

namespace Reader

variable (reader : Reader)

def statementSha256 (text : Text) : Text := sha256Hex (textEncode (normalizeStatement reader.tables text))

/-- `add`: a statement that is too short is none. -/
def add (line : Nat) (statement : Text × Signal) : Option Found :=
  if (normalizeStatement reader.tables statement.1).length < 3 then none
  else some ⟨reader.sourceId, line, trim (oneBlank statement.1), reader.statementSha256 statement.1, statement.2⟩

/-- The flags of the lines before a line. -/
structure Flags where
  fenced : Bool
  comment : Bool
  normative : Bool
deriving DecidableEq

def startsFence (trimmed : Text) : Bool := (js "```").isPrefixOf trimmed || (js "~~~").isPrefixOf trimmed

def endsComment (trimmed : Text) : Bool := trimmed.tails.any fun rest => (js "-->").isPrefixOf rest

def startsComment (trimmed : Text) : Bool := (js "<!--").isPrefixOf trimmed

/-- One line: the flags behind it, and its statements. -/
def extractLine (flags : Flags) (raw : Text) : Flags × List (Text × Signal) :=
  let trimmed := trim raw
  if startsFence trimmed then ({ flags with fenced := !flags.fenced }, [])
  else if flags.fenced then (flags, [])
  else if flags.comment then ({ flags with comment := !endsComment trimmed }, [])
  else if startsComment trimmed then ({ flags with comment := !endsComment trimmed }, [])
  else
    let reading := readLine flags.normative trimmed
    ({ flags with normative := reading.normative }, reading.statements)

/-- The statements of the lines from a number on, each with its line. -/
def extractFrom : Flags → Nat → List Text → List (Nat × Text × Signal)
  | _, _, [] => []
  | flags, line, raw :: rest =>
      let (next, statements) := extractLine flags raw
      statements.map (line, ·) ++ extractFrom next (line + 1) rest

/-- One statement is one item: entries whose digest is new. -/
def firstOfEach : List Text → List Found → List Found
  | _, [] => []
  | seen, entry :: rest =>
      if entry.statementSha256 ∈ seen then firstOfEach seen rest
      else entry :: firstOfEach (entry.statementSha256 :: seen) rest

/-- The entries of statements. -/
def entriesOf (statements : List (Nat × Text × Signal)) : List Found :=
  firstOfEach [] (statements.filterMap fun statement => reader.add statement.1 statement.2)

def extractNormativeStatements (text : Text) : List Found :=
  reader.entriesOf (extractFrom ⟨false, false, false⟩ 1 (splitLines text))

end Reader

end Scope

end SingularityFlow
