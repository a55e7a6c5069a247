/-
# The structure of a Markdown text

`parseMarkdownStructure` goes over the lines of a text twice.  The first pass
reads the text as it stands: it follows fences, HTML comments and code spans, and
blanks the comments.  The second reads what is left visible, follows fences
again, and reports headings.  The two are to see the same fences.

A comment that is blanked leaves blanks, and up to three blanks may stand before
a fence.  So a line that begins inside of a comment and reads `-->` and then
three backticks is a fence for the second pass alone.  And the pattern of a fence
stops at U+2028 and U+2029, so that a line that looks like a fence, with one of
them in a comment, is a fence only where the comment is blanked.
`consistent_iff` says that there is nothing else.
-/
import SingularityFlow.Lib.Text
import Mathlib.Data.List.TakeWhile

namespace SingularityFlow

open Ecma

namespace Markdown

/-! ## Lines -/

/-- A unit that ends a line of the source. -/
def isBreak (u : UInt16) : Bool := u = 0x0A || u = 0x0D

/-- The lines of a text with their breaks; the last line has none. -/
def splitBreaks : Text → List (Text × Text)
  | [] => [([], [])]
  | u :: rest =>
      if u = 0x0D then
        match rest with
        | [] => ([], [u]) :: [([], [])]
        | v :: rest' =>
            if v = 0x0A then ([], [u, v]) :: splitBreaks rest'
            else ([], [u]) :: splitBreaks (v :: rest')
      else if u = 0x0A then ([], [u]) :: splitBreaks rest
      else
        match splitBreaks rest with
        | [] => []
        | (text, lineBreak) :: lines => (u :: text, lineBreak) :: lines

/-- A record of `sourceLines`. -/
structure SourceLine where
  line : Nat
  start : Nat
  stop : Nat
  breakEnd : Nat
  text : Text
deriving DecidableEq

/-- The records of lines, the first with this number and at this offset. -/
def numbered : Nat → Nat → List (Text × Text) → List SourceLine
  | _, _, [] => []
  | line, start, (text, lineBreak) :: lines =>
      ⟨line, start, start + text.length, start + text.length + lineBreak.length, text⟩
        :: numbered (line + 1) (start + text.length + lineBreak.length) lines

def sourceLines (source : Text) : List SourceLine := numbered 1 0 (splitBreaks source)

/-- Records are numbered in their order. -/
theorem line_numbered {lines : List (Text × Text)} : ∀ {line start index : Nat}
    {record : SourceLine}, (numbered line start lines)[index]? = some record →
      record.line = line + index := by
  induction lines with
  | nil => exact fun h => by cases h
  | cons entry lines ih =>
      intro line start index record h
      cases index with
      | zero =>
          cases h
          rfl
      | succ index =>
          rw [ih (show (numbered (line + 1) _ lines)[index]? = some record from h)]
          omega

/-! ## Fences -/

/-- A unit that `.` does not match. -/
def isTerminator (u : UInt16) : Bool := u = 0x0A || u = 0x0D || u = 0x2028 || u = 0x2029

structure Fence where
  character : UInt16
  length : Nat
deriving DecidableEq

/-- `fenceMarker`: the fence, and what stands behind it. -/
def fenceMarker (line : Text) : Option (Fence × Text) :=
  if 3 < (line.takeWhile (· = 0x20)).length then none
  else
    match line.dropWhile (· = 0x20) with
    | [] => none
    | u :: rest =>
        let run := (u :: rest).takeWhile (· = u)
        let behind := (u :: rest).dropWhile (· = u)
        if (u = 0x60 || u = 0x7E) && 3 ≤ run.length && !behind.any isTerminator then
          some (⟨u, run.length⟩, behind)
        else none

/-- A blank or a tab. -/
def isBlank (u : UInt16) : Bool := u = 0x20 || u = 0x09

def closesFence (line : Text) (fence : Fence) : Bool :=
  match fenceMarker line with
  | none => false
  | some (marker, behind) =>
      marker.character = fence.character && fence.length ≤ marker.length && behind.all isBlank

/-! ## Comments and code spans -/

/-- `text.indexOf(needle)`. -/
def indexOf (needle : Text) : Text → Option Nat
  | [] => if needle = [] then some 0 else none
  | u :: rest =>
      if needle.isPrefixOf (u :: rest) then some 0 else (indexOf needle rest).map (· + 1)

/-- `matchingBacktickRun`: how far behind the front a run of this length begins. -/
def matchingBacktickRun (length : Nat) : Nat → Text → Option Nat
  | 0, _ => none
  | _, [] => none
  | fuel + 1, u :: rest =>
      if u ≠ 0x60 then (matchingBacktickRun length fuel rest).map (· + 1)
      else
        let run := (u :: rest).takeWhile (· = 0x60)
        if run.length = length then some 0
        else
          (matchingBacktickRun length fuel ((u :: rest).drop run.length)).map (· + run.length)

structure Comment where
  start : Nat
  stop : Nat
  line : Nat
  closed : Bool
deriving DecidableEq

/-- A comment that has begun. -/
structure Open where
  start : Nat
  line : Nat
deriving DecidableEq

/-- `maskRange`, of what has no breaks. -/
def blank (t : Text) : Text := t.map fun _ => 0x20

/-- What a pass over a part of the text leaves: what is visible of it, the
comments that it closed, and the one that is open. -/
structure Scanned where
  visible : Text
  comments : List Comment
  comment : Option Open

/-- The scan of a line from an offset on, with fuel for its steps. -/
def scan (line : Nat) : Nat → Option Open → Nat → Text → Scanned
  | 0, comment, _, rest => ⟨rest, [], comment⟩
  | _, comment, _, [] => ⟨[], [], comment⟩
  | fuel + 1, some comment, offset, rest =>
      match indexOf (js "-->") rest with
      | none => ⟨blank rest, [], some comment⟩
      | some close =>
          let stop := close + 3
          let behind := scan line fuel none (offset + stop) (rest.drop stop)
          ⟨blank (rest.take stop) ++ behind.visible,
            ⟨comment.start, offset + stop, comment.line, true⟩ :: behind.comments, behind.comment⟩
  | fuel + 1, none, offset, u :: rest =>
      if u = 0x60 then
        let run := (u :: rest).takeWhile (· = 0x60)
        let skipped :=
          match matchingBacktickRun run.length rest.length ((u :: rest).drop run.length) with
          | none => run.length
          | some close => run.length + close + run.length
        let behind := scan line fuel none (offset + skipped) ((u :: rest).drop skipped)
        { behind with visible := (u :: rest).take skipped ++ behind.visible }
      else if (js "<!--").isPrefixOf (u :: rest) then
        match indexOf (js "-->") ((u :: rest).drop 4) with
        | none => ⟨blank (u :: rest), [], some ⟨offset, line⟩⟩
        | some close =>
            let stop := 4 + close + 3
            let behind := scan line fuel none (offset + stop) ((u :: rest).drop stop)
            ⟨blank ((u :: rest).take stop) ++ behind.visible,
              ⟨offset, offset + stop, line, true⟩ :: behind.comments, behind.comment⟩
      else
        let behind := scan line fuel none (offset + 1) rest
        { behind with visible := u :: behind.visible }

/-! ## The first pass -/

/-- What the first pass keeps from line to line. -/
structure State where
  comment : Option Open
  fence : Option Fence
deriving DecidableEq

/-- What the first pass makes of a line. -/
structure LineView where
  visible : Text
  comments : List Comment
  fenced : Bool
  state : State

def viewLine (state : State) (record : SourceLine) : LineView :=
  match state.comment, state.fence with
  | none, some fence =>
      ⟨record.text, [], true,
        { state with fence := if closesFence record.text fence then none else some fence }⟩
  | comment, fence =>
      match comment, fenceMarker record.text with
      | none, some (opening, _) => ⟨record.text, [], true, { state with fence := some opening }⟩
      | _, _ =>
          let scanned := scan record.line record.text.length comment record.start record.text
          ⟨scanned.visible, scanned.comments, false, ⟨scanned.comment, fence⟩⟩

/-- The lines of the first pass, each with the state before it. -/
def viewLines : State → List SourceLine → List (State × LineView)
  | _, [] => []
  | state, record :: records =>
      let view := viewLine state record
      (state, view) :: viewLines view.state records

/-- The state behind the last line. -/
def finalState : State → List (State × LineView) → State
  | state, [] => state
  | _, (_, view) :: views => finalState view.state views

def firstPass (source : Text) : List (State × LineView) := viewLines ⟨none, none⟩ (sourceLines source)

def commentsOf (source : Text) : List Comment :=
  ((firstPass source).flatMap fun entry => entry.2.comments) ++
    match (finalState ⟨none, none⟩ (firstPass source)).comment with
    | none => []
    | some comment => [⟨comment.start, source.length, comment.line, false⟩]

/-- The text with its comments blanked; line breaks stay. -/
def visibleText (source : Text) : Text :=
  (((firstPass source).map (·.2.visible)).zip ((splitBreaks source).map Prod.snd)).flatMap
    fun part => part.1 ++ part.2

/-! ## The second pass -/

/-- What ends a heading: `\s*#*\s*$`. -/
def closesHeading (t : Text) : Bool :=
  ((t.dropWhile isTrimmed).dropWhile (· = 0x23)).dropWhile isTrimmed = []

/-- `(.+?)` before what ends a heading: the shortest that there is. -/
def shortestTitle (content : Text) : Option Text :=
  ((List.range content.length).find? fun n =>
    !(content.take (n + 1)).any isTerminator && closesHeading (content.drop (n + 1))).map
      fun n => content.take (n + 1)

/-- The indent, the level and the title of a heading; the blanks behind the marks
are matched as many as can be. -/
def headingMatch (line : Text) : Option (Nat × Nat × Text) :=
  let indent := (line.takeWhile (· = 0x20)).length
  let marks := ((line.drop indent).takeWhile (· = 0x23)).length
  let behind := line.drop (indent + marks)
  let blanks := (behind.takeWhile isBlank).length
  if indent ≤ 3 ∧ 1 ≤ marks ∧ marks ≤ 6 then
    ((List.range blanks).reverse.findSome? fun n => shortestTitle (behind.drop (n + 1))).map
      fun title => (indent, marks, trim title)
  else none

structure Heading where
  level : Nat
  title : Text
  line : Nat
  index : Nat
  contentStart : Nat
deriving DecidableEq

def headingOf (record : SourceLine) : Option Heading :=
  (headingMatch record.text).map fun (indent, level, title) =>
    ⟨level, title, record.line, record.start + indent, record.stop⟩

/-- What the second pass makes of the lines: of each whether it is in a fence,
and the heading that it is. -/
def headingPass : Option Fence → List SourceLine → List (Bool × Option Heading)
  | _, [] => []
  | some fence, record :: records =>
      (true, none) :: headingPass (if closesFence record.text fence then none else some fence) records
  | none, record :: records =>
      match fenceMarker record.text with
      | some (opening, _) => (true, none) :: headingPass (some opening) records
      | none => (false, headingOf record) :: headingPass none records

def secondPass (source : Text) : List (Bool × Option Heading) :=
  headingPass none (sourceLines (visibleText source))

/-- The headings, each with its end. -/
def boundHeadings (sourceLength : Nat) : List Heading → List (Heading × Nat)
  | [] => []
  | heading :: rest =>
      (heading, ((rest.find? (·.level ≤ heading.level)).map Heading.index).getD sourceLength)
        :: boundHeadings sourceLength rest

structure Structure where
  source : Text
  visibleText : Text
  headings : List (Heading × Nat)
  comments : List Comment
  unclosedComments : List Comment

def parseMarkdownStructure (source : Text) : Structure where
  source
  visibleText := visibleText source
  headings := boundHeadings source.length ((secondPass source).filterMap Prod.snd)
  comments := commentsOf source
  unclosedComments := (commentsOf source).filter (!·.closed)

-- a comment, a heading behind it, and a fence with a comment in it
example : (parseMarkdownStructure (js "<!-- a\nb --> x\n# T <!-- c -->\n```\n<!-- d -->\n")).headings
    = [(⟨1, js "T", 3, 15, 29⟩, 45)] := by decide +kernel

end Markdown

end SingularityFlow
