/-
# Words in a text

Regular expressions that look for words, whatever their case, are read here as what
they look for: phrases of words with white space between them, each phrase beginning
and ending at a word boundary.
-/
import SingularityFlow.Lib.NumberText

namespace Ecma

/-- A unit as `/iu` compares it with an ASCII letter in lower case. -/
def foldUnit (u : UInt16) : UInt16 :=
  if u = 0x17F then 0x73 else if u = 0x212A then 0x6B else lowerAscii u

def isUpperAscii (u : UInt16) : Bool := 0x41 ≤ u.toNat && u.toNat ≤ 0x5A

/-- `\w` under `/iu`. -/
def isWordUnit (u : UInt16) : Bool :=
  isUpperAscii (foldUnit u - 0x20) || isDigit u || u = 0x5F

/-- The text behind a word in lower case, if it begins with that word. -/
def wordAt (word t : Text) : Option Text :=
  if (t.take word.length).map foldUnit = word then some (t.drop word.length) else none

/-- The text behind the words of a phrase. -/
def phraseAt : List Text → Text → Option Text
  | [], t => some t
  | [word], t => wordAt word t
  | word :: words, t =>
      match wordAt word t with
      | none => none
      | some rest => if rest.head?.any isTrimmed then phraseAt words (rest.dropWhile isTrimmed) else none

/-- A text begins with one of some phrases, which ends at a word boundary. -/
def startsPhrase (phrases : List (List Text)) (t : Text) : Bool :=
  phrases.any fun phrase => (phraseAt phrase t).any fun rest => !rest.head?.any isWordUnit

/-- One of some phrases stands behind a unit of a text, or at its front. -/
def hasPhraseFrom (phrases : List (List Text)) : Option UInt16 → Text → Bool
  | _, [] => false
  | before, u :: rest =>
      (!before.any isWordUnit && startsPhrase phrases (u :: rest)) || hasPhraseFrom phrases (some u) rest

/-- `/\b(?:…)\b/iu.test(t)`, for phrases that are words of ASCII letters. -/
def hasPhrase (phrases : List (List Text)) (t : Text) : Bool := hasPhraseFrom phrases none t

/-- Runs of white space are one blank: `replace(/\s+/gu, ' ')`. -/
def oneBlank : Text → Text
  | [] => []
  | u :: rest =>
      if isTrimmed u then
        match rest with
        | [] => [0x20]
        | v :: _ => if isTrimmed v then oneBlank rest else 0x20 :: oneBlank rest
      else u :: oneBlank rest

/-- Every match is replaced by a blank: a match begins with the unit it is looked for
at, and what stands behind it is given. -/
def blankMatches (matchAt : Text → Option Text) : Nat → Text → Text
  | 0, t => t
  | _, [] => []
  | fuel + 1, u :: rest =>
      match matchAt (u :: rest) with
      | some behind => 0x20 :: blankMatches matchAt fuel behind
      | none => u :: blankMatches matchAt fuel rest

end Ecma
