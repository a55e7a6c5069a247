/-
# Resources of tasks and their conflicts

A resource key is a path-like text.  Two keys overlap when they are equal or
one is a directory above the other; two declarations conflict when their
modes exclude each other on overlapping keys.

A key is normalized when it is declared, and again when it is compared.  The
second time can give another key, or throw.
-/
import SingularityFlow.Errors
import SingularityFlow.Lib.Collections
import Mathlib.Data.List.Lex

namespace SingularityFlow

open Ecma

namespace Sgos

/-! ## Installed limits -/

namespace InstalledLimits

def maximumTasks : Nat := 2000
def maximumParallelExecutions : Nat := 8
def maximumResourceLeaseEntries : Nat := 256
def maximumFanoutParallel : Nat := 8
def maximumJoinInputs : Nat := 2000

end InstalledLimits

/-! ## The order of code points -/

/-- `Array.from(text)` as numbers; an unpaired surrogate is its own. -/
def codePoints : Text → List Nat
  | [] => []
  | [u] => [u.toNat]
  | u :: v :: rest =>
      if isHighSurrogate u && isLowSurrogate v then (pairScalar u v).toNat :: codePoints rest
      else u.toNat :: codePoints (v :: rest)

def comparePoints : List Nat → List Nat → Ordering
  | [], [] => .eq
  | [], _ :: _ => .lt
  | _ :: _, [] => .gt
  | a :: as, b :: bs => if a < b then .lt else if b < a then .gt else comparePoints as bs

def compareSgosCodePoints (left right : Text) : Ordering :=
  comparePoints (codePoints left) (codePoints right)

theorem comparePoints_cases : ∀ a b : List Nat,
    (comparePoints a b = .lt ↔ a < b) ∧ (comparePoints a b = .gt ↔ b < a)
  | [], [] => by simp [comparePoints]
  | [], b :: bs => by simp [comparePoints]
  | a :: as, [] => by simp [comparePoints]
  | a :: as, b :: bs => by
      obtain ⟨hlt, hgt⟩ := comparePoints_cases as bs
      rw [comparePoints, List.cons_lt_cons_iff, List.cons_lt_cons_iff, ← hlt, ← hgt]
      rcases lt_trichotomy a b with h | rfl | h
      · simp [h, h.not_gt, h.ne']
      · simp
      · simp [h, h.not_gt, h.ne']

/-- The units of a code point. -/
def unitsOfPoint (n : Nat) : Text :=
  if n < 0x10000 then [n.toUInt16] else unitsOfScalar (Char.ofNat n)

theorem unitsOfPoint_toNat {c : Char} (h : ¬ c.toNat < 0x10000) :
    unitsOfPoint c.toNat = unitsOfScalar c := by
  rw [unitsOfPoint, if_neg h, Char.ofNat_toNat]

/-- Code points tell texts apart. -/
theorem codePoints_units : ∀ t : Text, (codePoints t).flatMap unitsOfPoint = t
  | [] => rfl
  | [u] => by
      have hu := u.toNat_lt
      simp [codePoints, unitsOfPoint, show u.toNat < 65536 by omega]
  | u :: v :: rest => by
      have hu := u.toNat_lt
      rw [codePoints]
      split
      · next h =>
          rw [Bool.and_eq_true] at h
          have hunits := unitsOfScalar_pairScalar h.1 h.2
          have hlarge : ¬ (pairScalar u v).toNat < 0x10000 := fun hsmall => by
            have hone := congrArg List.length hunits
            rw [unitsOfScalar, if_pos hsmall] at hone
            simp at hone
          rw [List.flatMap_cons, unitsOfPoint_toNat hlarge, hunits, codePoints_units rest]
          rfl
      · rw [List.flatMap_cons, codePoints_units (v :: rest)]
        simp [unitsOfPoint, show u.toNat < 65536 by omega]

theorem codePoints_injective : Function.Injective codePoints :=
  Function.LeftInverse.injective codePoints_units

/-! ## Resource keys -/

inductive ResourceMode where
  | read | write | device | externalEffect
deriving DecidableEq

def ResourceMode.name : ResourceMode → Text
  | .read => js "read"
  | .write => js "write"
  | .device => js "device"
  | .externalEffect => js "external-effect"

def resourceFail (message : Text) : Failure :=
  .singularityFlow message (some (js "SGOS_RESOURCE_INVALID"))

/-- `text.replace(/<suffix>$/, '')`. -/
def dropSuffix (suffix text : Text) : Text :=
  if suffix <:+ text then text.take (text.length - suffix.length) else text

/-- `segment.replace(/%2e/giu, '.')`. -/
def decodeDots : Text → Text
  | 0x25 :: 0x32 :: u :: rest =>
      if u = 0x65 ∨ u = 0x45 then 0x2E :: decodeDots rest
      else 0x25 :: decodeDots (0x32 :: u :: rest)
  | u :: rest => u :: decodeDots rest
  | [] => []

variable (tables : UnicodeTables)

def normalizeSgosResourceKey (value : Text) : Except Failure Text := do
  let slashed := (tables.normalize (trim value)).map fun u => if u = 0x5C then 0x2F else u
  let starless :=
    if js "/**" <:+ slashed then dropSuffix (js "/**") slashed else dropSuffix (js "/*") slashed
  let normalized := dropSuffix (js "/") starless
  failIf (normalized = []) (resourceFail (js "A resource key cannot be empty."))
  failIf (normalized.any (fun u => u.toNat ≤ 0x1F || u = 0x7F) = true)
    (resourceFail (js "A resource key cannot contain control characters."))
  failIf ((normalized.splitOn 0x2F).any (fun segment =>
      decodeDots segment = js "." || decodeDots segment = js "..") = true)
    (resourceFail (js "A resource key cannot contain traversal segments."))
  .ok normalized

def sgosResourceKeysOverlap (left right : Text) : Except Failure Bool := do
  let a ← normalizeSgosResourceKey tables left
  let b ← normalizeSgosResourceKey tables right
  .ok (a = js "*" || b = js "*" || a = b || (b ++ js "/").isPrefixOf a || (a ++ js "/").isPrefixOf b)

/-! ## Declarations -/

/-- The resources that a template declares. -/
structure Resources where
  reads : List Text
  writes : List Text
  devices : List Text
  externalEffects : List Text

structure ResourceEntry where
  key : Text
  mode : ResourceMode
deriving DecidableEq

def compareEntry (left right : ResourceEntry) : Ordering :=
  (compareSgosCodePoints left.key right.key).then
    (compareSgosCodePoints left.mode.name right.mode.name)

/-- The declared values with their modes, in the order of the fields. -/
def declaredResources (resources : Resources) : List (Text × ResourceMode) :=
  resources.reads.map (·, .read) ++ resources.writes.map (·, .write)
    ++ resources.devices.map (·, .device) ++ resources.externalEffects.map (·, .externalEffect)

def canonicalSgosResourceEntries (resources : Resources) : Except Failure (List ResourceEntry) := do
  let entries ← sequence ((declaredResources resources).map fun p => do
    let key ← normalizeSgosResourceKey tables p.1
    .ok ⟨key, p.2⟩)
  let result := (distinct entries).insertionSort fun a b => compareEntry a b ≠ .gt
  failIf (result.length > InstalledLimits.maximumResourceLeaseEntries)
    (.singularityFlow (js "A task resource lease exceeds the installed entry ceiling.")
      (some (js "SGOS_RESOURCE_LEASE_LIMIT")))
  .ok result

/-! ## Conflicts -/

def modesConflict (left right : ResourceMode) : Bool :=
  if left = .read ∧ right = .read then false
  else if (left = .read ∨ left = .write) ∧ (right = .read ∨ right = .write) then
    left = .write ∨ right = .write
  else left = right

/-- The test of the two loops for one pair of entries. -/
def entryConflict (left right : ResourceEntry) : Except Failure Bool :=
  if modesConflict left.mode right.mode then sgosResourceKeysOverlap tables left.key right.key
  else .ok false

def sgosResourceEntriesConflict (leftEntries rightEntries : List ResourceEntry) :
    Except Failure Bool :=
  someM (fun left => someM (entryConflict tables left) rightEntries) leftEntries

/-! ## Conflicts are mutual -/

variable {tables}

theorem modesConflict_comm (left right : ResourceMode) :
    modesConflict left right = modesConflict right left := by
  cases left <;> cases right <;> rfl

theorem sgosResourceKeysOverlap_comm {left right : Text} {b : Bool}
    (h : sgosResourceKeysOverlap tables left right = .ok b) :
    sgosResourceKeysOverlap tables right left = .ok b := by
  simp only [sgosResourceKeysOverlap, bind_eq_ok_iff, Except.ok.injEq] at h ⊢
  obtain ⟨x, hx, y, hy, rfl⟩ := h
  refine ⟨y, hy, x, hx, ?_⟩
  rw [Bool.or_comm (decide (y = js "*")), decide_eq_decide.mpr (eq_comm : y = x ↔ x = y),
    Bool.or_assoc _ ((x ++ js "/").isPrefixOf y), Bool.or_comm ((x ++ js "/").isPrefixOf y),
    ← Bool.or_assoc]

theorem entryConflict_comm {left right : ResourceEntry} {b : Bool}
    (h : entryConflict tables left right = .ok b) : entryConflict tables right left = .ok b := by
  unfold entryConflict at h ⊢
  rw [modesConflict_comm]
  split at h
  · next hm => rw [if_pos hm]; exact sgosResourceKeysOverlap_comm h
  · next hm => rw [if_neg hm]; exact h

theorem sgosResourceEntriesConflict_eq_false_iff {left right : List ResourceEntry} :
    sgosResourceEntriesConflict tables left right = .ok false ↔
      ∀ a ∈ left, ∀ b ∈ right, entryConflict tables a b = .ok false := by
  simp only [sgosResourceEntriesConflict, someM_eq_false_iff]

/-- Entries that do not conflict do not in the other order either. -/
theorem sgosResourceEntriesConflict_false_comm {left right : List ResourceEntry}
    (h : sgosResourceEntriesConflict tables left right = .ok false) :
    sgosResourceEntriesConflict tables right left = .ok false := by
  rw [sgosResourceEntriesConflict_eq_false_iff] at h ⊢
  exact fun b hb a ha => entryConflict_comm (h a ha b hb)

end Sgos

end SingularityFlow
