/-
# Prompt sections and the capsule for those left out

The text of a prompt is its sections with a blank line between each two.  For
sections that are left out it ends with a capsule that names them: as many
blocks as fit, and the number of the others.

A block is added only if it still fits together with the number that would
then remain, so behind the last block that number always has its room
(`includeBlocks_spec`), and blocks and remainder account for all of the
sections left out (`omissionCapsule_counts`).
-/
import SingularityFlow.Prompt.Admission
import SingularityFlow.Lib.Collections
import SingularityFlow.Lib.Utf8Prefix

namespace SingularityFlow

open Ecma

namespace Prompt

/-! ## Sections -/

/-- A section as it is given, its fields as texts. -/
structure Input where
  id : Text
  text : Text
  exact : Bool
  mandatory : Bool
  priority : Option Number
  expandHandles : List Text

structure Section where
  id : Text
  canonicalText : Text
  exact : Bool
  mandatory : Bool
  priority : Number
  expandHandles : List Text
  index : Nat
deriving DecidableEq

def Section.bytes (s : Section) : Nat := byteLength s.canonicalText

def Section.sha256 (s : Section) : Text := sha256Hex (textEncode s.canonicalText)

/-- `/^[a-z][a-z0-9-]{0,63}$/`. -/
def isSectionId : Text → Bool
  | [] => false
  | u :: rest => (0x61 ≤ u.toNat && u.toNat ≤ 0x7A) && rest.length ≤ 63
      && rest.all fun v => isLowerAlnum v || v == 0x2D

def reservedSectionIds : List Text :=
  [js "token-budget-omissions", js "kernel-law", js "active-human-instruction"]

/-- An exact section is taken as it stands, any other one trimmed. -/
def canonicalText (input : Input) : Text := if input.exact then input.text else trim input.text

def sectionFailure (message : Text) (code : String) : Failure :=
  .singularityFlow message (some (js code))

def normalizeSection (index : Nat) (input : Input) : Section where
  id := input.id
  canonicalText := canonicalText input
  exact := input.exact
  mandatory := input.mandatory
  priority := match input.priority with
    | some x => if x.isFinite then x else Number.ofNat 100
    | none => Number.ofNat 100
  expandHandles := distinct ((input.expandHandles.map trim).filter (· ≠ []))
  index

/-- The checks of one identifier. -/
def checkSectionId (seen : List Text) (id : Text) : Except Failure Unit := do
  failIf (isSectionId id = false) (sectionFailure
    (js "Prompt section ID '" ++ id ++ js "' must match /^[a-z][a-z0-9-]\x7b0,63\x7d$/.")
    "TKN_SECTION_ID_INVALID")
  failIf (id ∈ reservedSectionIds) (sectionFailure
    (js "Prompt section ID '" ++ id ++ js "' is reserved by the kernel.")
    "TKN_SECTION_ID_RESERVED")
  failIf (id ∈ seen) (sectionFailure
    (js "Prompt section ID '" ++ id ++ js "' is duplicated.") "TKN_SECTION_ID_DUPLICATE")

/-- The sections of the inputs from an index on. -/
def normalizeFrom (seen : List Text) (index : Nat) : List Input → Except Failure (List Section)
  | [] => .ok []
  | input :: rest => do
      checkSectionId seen input.id
      let sections ← normalizeFrom (input.id :: seen) (index + 1) rest
      return normalizeSection index input :: sections

/-- `normalizeSections`; a section without text is dropped. -/
def normalizeSections (inputs : List Input) : Except Failure (List Section) := do
  let sections ← normalizeFrom [] 0 inputs
  return sections.filter (·.canonicalText ≠ [])

/-- `render`, on the texts of the sections. -/
def renderTexts (texts : List Text) : Text :=
  let body := joinWith (js "\n\n") (texts.filter (· ≠ []))
  if body = [] then [] else body ++ js "\n"

/-- What normalized sections are: named once, in the order of their indices,
each with the text of its input. -/
structure Normal (inputs : List Input) (sections : List Section) : Prop where
  ids : (sections.map Section.id).Nodup
  increasing : sections.Pairwise fun a b => a.index < b.index
  texts : ∀ s ∈ sections, s.canonicalText ≠ []
  source : ∀ s ∈ sections, ∃ input, inputs[s.index]? = some input
    ∧ s = normalizeSection s.index input
  complete : ∀ i input, inputs[i]? = some input → canonicalText input ≠ [] →
    normalizeSection i input ∈ sections

theorem normalizeFrom_eq_ok : ∀ {inputs : List Input} {seen : List Text} {index : Nat}
    {sections : List Section}, normalizeFrom seen index inputs = .ok sections →
      sections = inputs.mapIdx (fun i input => normalizeSection (index + i) input)
        ∧ (inputs.map Input.id).Nodup ∧ ∀ id ∈ inputs.map Input.id, id ∉ seen
  | [], _, _, _, h => by
      cases h
      simp
  | input :: rest, seen, index, sections, h => by
      obtain ⟨_, hid, h⟩ := bind_eq_ok_iff.mp h
      obtain ⟨later, hrest, h⟩ := bind_eq_ok_iff.mp h
      obtain rfl := Except.ok.inj h
      obtain ⟨hsections, hnodup, hseen⟩ := normalizeFrom_eq_ok hrest
      have hfresh : input.id ∉ seen := by
        obtain ⟨_, -, hid⟩ := bind_eq_ok_iff.mp hid
        obtain ⟨_, -, hid⟩ := bind_eq_ok_iff.mp hid
        exact failIf_eq_ok_iff.mp hid
      refine ⟨?_, ?_, ?_⟩
      · rw [hsections, List.mapIdx_cons, Nat.add_zero]
        congr 2
        funext i input
        rw [Nat.add_assoc, Nat.add_comm 1 i]
      · rw [List.map_cons, List.nodup_cons]
        exact ⟨fun hmem => hseen _ hmem (List.mem_cons_self ..), hnodup⟩
      · rw [List.map_cons]
        refine List.forall_mem_cons.mpr ⟨hfresh, fun id hid hmem => ?_⟩
        exact hseen id hid (List.mem_cons_of_mem _ hmem)

/-- **Normalization keeps every section that has a text.** -/
theorem normal_of_normalizeSections {inputs : List Input} {sections : List Section}
    (h : normalizeSections inputs = .ok sections) : Normal inputs sections := by
  obtain ⟨all, hall, h⟩ := bind_eq_ok_iff.mp h
  obtain rfl := Except.ok.inj h
  obtain ⟨rfl, hnodup, -⟩ := normalizeFrom_eq_ok hall
  simp only [Nat.zero_add]
  have hget : ∀ i input, inputs[i]? = some input →
      normalizeSection i input ∈ inputs.mapIdx normalizeSection := by
    intro i input hi
    obtain ⟨hlt, rfl⟩ := List.getElem?_eq_some_iff.mp hi
    exact List.mem_mapIdx.mpr ⟨i, hlt, rfl⟩
  refine ⟨?_, ?_, ?_, ?_, ?_⟩
  · refine List.Nodup.sublist (List.filter_sublist.map _) ?_
    have hids : (inputs.mapIdx normalizeSection).map Section.id = inputs.map Input.id :=
      List.ext_getElem (by simp) fun i h₁ h₂ => by simp [normalizeSection]
    rwa [hids]
  · refine List.Pairwise.sublist List.filter_sublist ?_
    rw [List.pairwise_iff_getElem]
    intro i j hi hj hij
    simpa [normalizeSection] using hij
  · exact fun s hs => of_decide_eq_true (List.mem_filter.mp hs).2
  · intro s hs
    obtain ⟨i, hi, rfl⟩ := List.mem_mapIdx.mp (List.mem_of_mem_filter hs)
    exact ⟨inputs[i], List.getElem?_eq_getElem hi, rfl⟩
  · exact fun i input hi hne => List.mem_filter.mpr ⟨hget i input hi, decide_eq_true hne⟩

/-! ## The capsule -/

def capsuleHeader : List Text :=
  [js "# Context omitted under approved policy", [],
    js "Optional context was omitted. A source hash proves identity; only an explicit Expand value is retrievable.",
    []]

/-- The lines that name a section. -/
def block (s : Section) : List Text :=
  [js "- Section: " ++ s.id, js "  Reason: budget", js "  Source: sha256:" ++ s.sha256,
    js "  Expand: " ++ (if s.expandHandles = [] then js "unavailable"
      else joinWith (js ", ") s.expandHandles), []]

/-- The line that counts the sections without a block, when there are any. -/
def remainderLines (remainder : Nat) : List Text :=
  if remainder = 0 then []
  else [js "- Additional omitted sections: " ++ natText remainder ++ js " (see structured audit)"]

def joinLines (lines : List Text) : Text := joinWith (js "\n") lines

/-- The loop over the sections left out, of which `total` there are. -/
def includeBlocks (total maximumBytes : Nat) :
    List Text → Nat → List Section → List Text × Nat
  | lines, included, [] => (lines, included)
  | lines, included, s :: rest =>
      let candidate := joinLines (lines ++ block s ++ remainderLines (total - included - 1))
      if maximumBytes < byteLength candidate then (lines, included)
      else includeBlocks total maximumBytes (lines ++ block s) (included + 1) rest

/-- What stands for the capsule when no block fits. -/
def compactCapsule (first : Section) (total : Nat) : Text :=
  joinLines ([js "# Context omitted under approved policy", [], js "- Section: " ++ first.id,
    js "  Reason: budget",
    js "  Expand: " ++ first.expandHandles.head?.getD (js "unavailable")]
    ++ remainderLines (total - 1))

/-- `omissionCapsule`, its text. -/
def omissionCapsule (omitted : List Section) (maximumBytes : Nat) : Option Text :=
  match omitted with
  | [] => none
  | first :: _ =>
      let blocks := includeBlocks omitted.length maximumBytes capsuleHeader 0 omitted
      let lines :=
        if blocks.2 = 0 then [utf8Prefix (compactCapsule first omitted.length) maximumBytes]
        else
          let counted := blocks.1 ++ remainderLines (omitted.length - blocks.2)
          if byteLength (joinLines counted) ≤ maximumBytes then counted else blocks.1
      some (utf8Prefix (joinLines lines) maximumBytes)

/-- The text of a capsule that names sections and counts the others. -/
def capsuleText (named : List Section) (remainder : Nat) : Text :=
  joinLines (capsuleHeader ++ named.flatMap block ++ remainderLines remainder)

/-- The loop adds blocks of the first sections, and leaves room for the number of the others. -/
theorem includeBlocks_spec (total maximumBytes : Nat) : ∀ (named rest : List Section),
    total = (named ++ rest).length →
      (named ≠ [] → byteLength (capsuleText named (total - named.length)) ≤ maximumBytes) →
      ∃ all, all <+: named ++ rest
        ∧ includeBlocks total maximumBytes (capsuleHeader ++ named.flatMap block) named.length rest
          = (capsuleHeader ++ all.flatMap block, all.length)
        ∧ named <+: all
        ∧ (all ≠ [] → byteLength (capsuleText all (total - all.length)) ≤ maximumBytes)
        ∧ ∀ s ∈ rest.head?, byteLength (capsuleText (named ++ [s]) (total - named.length - 1))
          ≤ maximumBytes → named ++ [s] <+: all
  | named, [], htotal, hfits =>
      ⟨named, by simp, rfl, List.prefix_rfl, hfits, by simp⟩
  | named, s :: rest, htotal, hfits => by
      have htext : joinLines (capsuleHeader ++ named.flatMap block ++ block s
          ++ remainderLines (total - named.length - 1))
          = capsuleText (named ++ [s]) (total - named.length - 1) := by
        simp [capsuleText, List.flatMap_append, List.append_assoc]
      rw [includeBlocks, htext]
      split
      · next hlarge =>
        refine ⟨named, List.prefix_append _ _, rfl, List.prefix_rfl, hfits, ?_⟩
        intro t ht hsmall
        obtain rfl : t = s := (Option.some.inj ht).symm
        omega
      · next hsmall =>
        have hlength : (named ++ [s]).length = named.length + 1 := by simp
        obtain ⟨all, hall, hblocks, hnamed, hroom, -⟩ :=
          includeBlocks_spec total maximumBytes (named ++ [s]) rest (by simpa using htotal)
            fun _ => by rw [hlength, ← Nat.sub_sub]; omega
        refine ⟨all, by simpa using hall, ?_, (List.prefix_append _ _).trans hnamed, hroom, ?_⟩
        · rw [← hblocks, hlength, List.flatMap_append]
          simp [List.append_assoc]
        · intro t ht _
          obtain rfl : t = s := (Option.some.inj ht).symm
          exact hnamed

/-- A capsule is never larger than it may be. -/
theorem byteLength_omissionCapsule {omitted : List Section} {maximumBytes : Nat} {text : Text}
    (h : omissionCapsule omitted maximumBytes = some text) : byteLength text ≤ maximumBytes := by
  cases omitted with
  | nil => cases h
  | cons first rest =>
      obtain rfl := Option.some.inj h
      exact byteLength_utf8Prefix_le _ _

/-- **Blocks and remainder account for all sections left out**, when one block fits. -/
theorem omissionCapsule_counts {first : Section} {rest : List Section} {maximumBytes : Nat}
    (hone : byteLength (capsuleText [first] rest.length) ≤ maximumBytes) :
    ∃ named remainder, named ≠ [] ∧ named <+: first :: rest
      ∧ named.length + remainder = (first :: rest).length
      ∧ omissionCapsule (first :: rest) maximumBytes = some (capsuleText named remainder) := by
  obtain ⟨all, hall, hblocks, -, hroom, hfirst⟩ :=
    includeBlocks_spec (first :: rest).length maximumBytes [] (first :: rest) rfl (by simp)
  have hne : [first] <+: all := hfirst first rfl (by simpa using hone)
  have hall' : all ≠ [] := by
    rintro rfl
    exact absurd (List.prefix_nil.mp hne) (by simp)
  have hlength : all.length ≤ (first :: rest).length := hall.length_le
  refine ⟨all, (first :: rest).length - all.length, hall', hall, by omega, ?_⟩
  have hfits := hroom hall'
  have hcount : all.length ≠ 0 := by simpa using hall'
  simp only [List.flatMap_nil, List.append_nil, List.length_nil] at hblocks
  rw [omissionCapsule, hblocks]
  rw [capsuleText] at hfits ⊢
  simp only [if_neg hcount, if_pos hfits]
  exact congrArg some (utf8Prefix_of_le hfits)

end Prompt

end SingularityFlow
