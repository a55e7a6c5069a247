/-
# The contracts of local bundles: limits and portable paths

The registered limits, and which paths a bundle may name.  Three operations
of the language depend on the Unicode tables (`normalize('NFC')`,
`toLowerCase`, `toLocaleLowerCase('en-US')`); they are given by a value of
`UnicodeTables`, of which nothing is assumed.  Regular expressions are
unfolded: the `i` flag together with `u` folds U+212A to `k` and U+017F to
`s` besides the ASCII letters.
-/
import SingularityFlow.Errors
import SingularityFlow.Lib.LittleEndian

namespace SingularityFlow

open Ecma

namespace LocalMode

/-! ## Limits -/

namespace LocLimits

def maximumFiles : Nat := 10000
def maximumFileBytes : Nat := 512 * 1024 * 1024
def maximumContentBytes : Nat := 2 * 1024 * 1024 * 1024
def maximumManifestBytes : Nat := 16 * 1024 * 1024
def maximumEnvelopeBytes : Nat := 32 * 1024 * 1024
def maximumArchiveBytes : Nat := 2 * 1024 * 1024 * 1024 + 64 * 1024 * 1024

end LocLimits

def locFail {α : Type} (message code : Text) : Except Failure α :=
  .error (.singularityFlow message (some code))

/-! ## Portable paths -/

/-- A unit under the `iu` flags, as far as ASCII letters are concerned. -/
def foldUnit (u : UInt16) : UInt16 :=
  if u = 0x212A then 0x6B else if u = 0x017F then 0x73 else lowerAscii u

/-- The names in `WINDOWS_RESERVED` before an extension. -/
def reservedStems : List Text :=
  [js "con", js "prn", js "aux", js "nul", js "conin$", js "conout$", js "clock$"]
    ++ [js "com", js "lpt"].flatMap fun stem =>
      [0x31, 0x32, 0x33, 0x34, 0x35, 0x36, 0x37, 0x38, 0x39, 0xB9, 0xB2, 0xB3].map
        fun digit => stem ++ [digit]

/-- What `.` does not match. -/
def isLineTerminator (u : UInt16) : Bool := u = 0x0A || u = 0x0D || u = 0x2028 || u = 0x2029

/-- `WINDOWS_RESERVED.test(part)`. -/
def windowsReserved (part : Text) : Bool :=
  let stem := part.takeWhile (· ≠ 0x2E)
  let extension := (part.dropWhile (· ≠ 0x2E)).drop 1
  decide (stem.map foldUnit ∈ reservedStems) && extension.all (!isLineTerminator ·)

variable (tables : UnicodeTables)

/-- The test that one component of a path must not pass. -/
def forbiddenPart (control : Bool) (part : Text) : Bool :=
  part = [] || part = js "." || part = js ".." || part ≠ tables.normalize part
    || part.any (fun u => u.toNat ≤ 0x1F || u = 0x7F)
    || part.any (· ∈ js ":*?\"<>|")
    || part.getLast?.any (· ∈ js ". ")
    || windowsReserved part
    || (!control && tables.toLowerCase part = js ".git")

/-- `/^[a-z]:/i.test(input)`. -/
def drivePrefix : Text → Bool
  | letter :: 0x3A :: _ => 0x61 ≤ (lowerAscii letter).toNat && (lowerAscii letter).toNat ≤ 0x7A
  | _ => false

def portablePath (input : Text) (control : Bool) : Except Failure Text :=
  if input = [] ∨ input ≠ tables.normalize input ∨ 0x5C ∈ input
      ∨ input.head? = some 0x2F ∨ drivePrefix input = true ∨ js "//" <+: input then
    locFail (js "Bundle path '" ++ input ++ js "' is not portable.") (js "LOCAL_PATH_INVALID")
  else if (input.splitOn 0x2F).any (forbiddenPart tables control) then
    locFail (js "Bundle path '" ++ input ++ js "' contains a forbidden component.")
      (js "LOCAL_PATH_INVALID")
  else .ok input

/-- `['manifest.json', 'manifest.dsse.json'].includes(path)`. -/
def isControl (path : Text) : Bool := path = js "manifest.json" || path = js "manifest.dsse.json"

/-- The key under which two paths collide. -/
def pathIdentity (path : Text) : Text := tables.toLocaleLowerCase (tables.normalize path)

/-- The loop of `assertUniquePortablePaths`; `seen` maps an identity to the
path that has it. -/
def assertUniqueFrom (seen : List (Text × Text)) : List Text → Except Failure Unit
  | [] => .ok ()
  | value :: rest =>
      match portablePath tables value (isControl value) with
      | .error e => .error e
      | .ok valid =>
          match seen.find? (fun p => p.1 = pathIdentity tables valid) with
          | some (_, other) =>
              locFail (js "Bundle paths '" ++ other ++ js "' and '" ++ valid ++ js "' collide.")
                (js "LOCAL_PATH_COLLISION")
          | none => assertUniqueFrom ((pathIdentity tables valid, valid) :: seen) rest

def assertUniquePortablePaths (values : List Text) : Except Failure Unit :=
  assertUniqueFrom tables [] values

/-! ## What the checks say -/

/-- A path that a bundle may name. -/
def Portable (path : Text) : Prop := portablePath tables path (isControl path) = .ok path

variable {tables}

theorem portablePath_eq_ok {input : Text} {control : Bool} {path : Text}
    (h : portablePath tables input control = .ok path) : path = input := by
  unfold portablePath locFail at h
  split_ifs at h
  exact (Except.ok.inj h).symm

theorem portable_of_eq_ok {path other : Text}
    (h : portablePath tables path (isControl path) = .ok other) : Portable tables path := by
  rw [Portable, h, portablePath_eq_ok h]

theorem Portable.ne_nil {path : Text} (h : Portable tables path) : path ≠ [] := by
  rintro rfl
  simp [Portable, portablePath, locFail] at h

theorem assertUniqueFrom_eq_ok_iff {values : List Text} : ∀ {seen : List (Text × Text)},
    assertUniqueFrom tables seen values = .ok () ↔
      (∀ path ∈ values, Portable tables path) ∧ (values.map (pathIdentity tables)).Nodup ∧
        ∀ path ∈ values, ∀ p ∈ seen, p.1 ≠ pathIdentity tables path := by
  induction values with
  | nil => simp [assertUniqueFrom]
  | cons value rest ih =>
      intro seen
      rw [assertUniqueFrom]
      split
      · next e he =>
        refine ⟨fun h => (by cases h), fun h => ?_⟩
        have := h.1 value (by simp)
        rw [Portable, he] at this
        cases this
      · next valid hvalid =>
        have hportable := portable_of_eq_ok hvalid
        obtain rfl := portablePath_eq_ok hvalid
        split
        · next identity other hp =>
          refine ⟨fun h => (by simp [locFail] at h), fun h => ?_⟩
          exact absurd (by simpa using List.find?_some hp)
            (h.2.2 valid (by simp) (identity, other) (List.mem_of_find?_eq_some hp))
        · next hnone =>
          have hfresh : ∀ p ∈ seen, p.1 ≠ pathIdentity tables valid := by
            simpa using hnone
          rw [ih, List.map_cons, List.nodup_cons]
          constructor
          · rintro ⟨h₁, h₂, h₃⟩
            refine ⟨List.forall_mem_cons.mpr ⟨hportable, h₁⟩, ⟨?_, h₂⟩,
              List.forall_mem_cons.mpr ⟨hfresh, fun path hpath p hp =>
                h₃ path hpath p (List.mem_cons_of_mem _ hp)⟩⟩
            intro hmem
            obtain ⟨path, hpath, he⟩ := List.mem_map.mp hmem
            exact h₃ path hpath _ (List.mem_cons_self ..) he.symm
          · rintro ⟨h₁, ⟨h₂, h₂'⟩, h₃⟩
            refine ⟨fun path hpath => h₁ path (List.mem_cons_of_mem _ hpath), h₂', ?_⟩
            intro path hpath
            refine List.forall_mem_cons.mpr ⟨fun he => h₂ ?_,
              h₃ path (List.mem_cons_of_mem _ hpath)⟩
            exact List.mem_map.mpr ⟨path, hpath, he.symm⟩

/-- **What `assertUniquePortablePaths` asserts.** -/
theorem assertUniquePortablePaths_eq_ok_iff {values : List Text} {u : Unit} :
    assertUniquePortablePaths tables values = .ok u ↔
      (∀ path ∈ values, Portable tables path) ∧ (values.map (pathIdentity tables)).Nodup := by
  rw [assertUniquePortablePaths, assertUniqueFrom_eq_ok_iff]
  simp

end LocalMode

end SingularityFlow
