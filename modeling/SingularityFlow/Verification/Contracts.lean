/-
# Verification contracts

A contract says by which slots an acceptance criterion is verified: the method
of each slot, what witnesses it, and whether it is primary or only supporting.
`normalizeVerificationContracts` checks the contracts that are read back from a
record, and a criterion without one is held to a default test slot.

The types exclude what those checks refuse first, methods, roles and combinations
that are not in the lists; the rest of a contract's checks is `Accepted`.
-/
import SingularityFlow.Errors
import SingularityFlow.Lib.NumberText

namespace SingularityFlow

open Ecma

namespace Verification

/-! ## Assurance -/

/-- `ASSURANCE`, weakest first. -/
inductive Assurance where
  | none | declared | sourceBound | moduleObserved | exactLocalObserved | exactAuthenticated
deriving DecidableEq

/-- `ASSURANCE.indexOf`. -/
def Assurance.rank : Assurance → Nat
  | .none => 0
  | .declared => 1
  | .sourceBound => 2
  | .moduleObserved => 3
  | .exactLocalObserved => 4
  | .exactAuthenticated => 5

/-- Of two values the one that stands first in its list. -/
def weaker {α : Type} (rank : α → Nat) (left right : α) : α :=
  if rank left ≤ rank right then left else right

def stronger {α : Type} (rank : α → Nat) (left right : α) : α :=
  if rank right ≤ rank left then left else right

/-- `weakest` of a list that is not empty. -/
def weakest {α : Type} (rank : α → Nat) (first : α) (rest : List α) : α := rest.foldl (weaker rank) first

def strongest {α : Type} (rank : α → Nat) (first : α) (rest : List α) : α :=
  rest.foldl (stronger rank) first

section Extremes

variable {α : Type} {rank : α → Nat}

theorem rank_weaker_le (left right : α) :
    rank (weaker rank left right) ≤ rank left ∧ rank (weaker rank left right) ≤ rank right := by
  unfold weaker
  split <;> omega

/-- The weakest value is not above any of them. -/
theorem rank_weakest_le (first : α) (rest : List α) :
    ∀ a ∈ first :: rest, rank (weakest rank first rest) ≤ rank a := by
  induction rest generalizing first with
  | nil =>
      intro a ha
      rw [List.mem_singleton.mp ha]
      exact Nat.le_refl _
  | cons b rest ih =>
      intro a ha
      have hfirst := ih (weaker rank first b) _ List.mem_cons_self
      have hboth : rank (weaker rank first b) ≤ rank first ∧ rank (weaker rank first b) ≤ rank b :=
        rank_weaker_le first b
      rcases List.mem_cons.mp ha with rfl | ha
      · exact Nat.le_trans hfirst hboth.1
      · rcases List.mem_cons.mp ha with rfl | ha
        · exact Nat.le_trans hfirst hboth.2
        · exact ih _ a (List.mem_cons_of_mem _ ha)

/-- One that picks between two values picks, over a list, one of the list. -/
theorem foldl_pick_mem {pick : α → α → α} (hpick : ∀ a b, pick a b = a ∨ pick a b = b) (first : α)
    (rest : List α) : rest.foldl pick first ∈ first :: rest := by
  induction rest generalizing first with
  | nil => exact List.mem_singleton_self _
  | cons b rest ih =>
      rw [List.foldl_cons]
      rcases List.mem_cons.mp (ih (pick first b)) with heq | hmem
      · rw [heq]
        rcases hpick first b with h | h <;> rw [h]
        · exact List.mem_cons_self
        · exact List.mem_cons_of_mem _ List.mem_cons_self
      · exact List.mem_cons_of_mem _ (List.mem_cons_of_mem _ hmem)

theorem weakest_mem (first : α) (rest : List α) : weakest rank first rest ∈ first :: rest := by
  refine foldl_pick_mem (fun a b => ?_) first rest
  unfold weaker
  split
  · exact .inl rfl
  · exact .inr rfl

/-- A value is below the weakest of a list if it is below all of them. -/
theorem le_rank_weakest_iff {n : Nat} (first : α) (rest : List α) :
    n ≤ rank (weakest rank first rest) ↔ ∀ a ∈ first :: rest, n ≤ rank a :=
  ⟨fun h a ha => Nat.le_trans h (rank_weakest_le first rest a ha), fun h => h _ (weakest_mem first rest)⟩

/-- The strongest value is one of them. -/
theorem strongest_mem (first : α) (rest : List α) : strongest rank first rest ∈ first :: rest := by
  refine foldl_pick_mem (fun a b => ?_) first rest
  unfold stronger
  split
  · exact .inl rfl
  · exact .inr rfl

end Extremes

/-! ## Contracts -/

/-- `VERIFICATION_METHODS`. -/
inductive Method where
  | test | inspection | visual
deriving DecidableEq

inductive Role where
  | primary | supporting
deriving DecidableEq

inductive Combination where
  | all | any
deriving DecidableEq

/-- What witnesses a slot. -/
inductive SlotWitness where
  | path (path : Text)
  | target (target : Text)
  /-- The planned tests of a default slot. -/
  | paths (paths : List Text)
deriving DecidableEq

/-- `witness?.path`. -/
def SlotWitness.path? : SlotWitness → Option Text
  | .path p => some p
  | _ => none

structure Slot where
  slot : Text
  method : Method
  role : Role
  witness : SlotWitness
  requiredAssurance : Option Assurance
deriving DecidableEq

structure Contract where
  clauseId : Text
  combination : Combination
  reason : Option Text
  slots : List Slot
deriving DecidableEq

def Slot.isPrimary (slot : Slot) : Bool := slot.role = .primary

def Slot.isTest (slot : Slot) : Bool := slot.method = .test

def Contract.primary (contract : Contract) : List Slot := contract.slots.filter Slot.isPrimary

def Contract.tests (contract : Contract) : List Slot := contract.slots.filter Slot.isTest

/-! ## The checks of a stored contract -/

/-- `METHOD_ASSURANCE`. -/
def methodAssurance : Method → List Assurance
  | .test => [.moduleObserved, .exactLocalObserved]
  | .inspection | .visual => [.declared, .sourceBound]

def isUpper (u : UInt16) : Bool := 0x41 ≤ u.toNat && u.toNat ≤ 0x5A

def isLower (u : UInt16) : Bool := 0x61 ≤ u.toNat && u.toNat ≤ 0x7A

/-- `/^[a-z][a-z0-9-]{0,31}$/u`. -/
def isSlotId : Text → Bool
  | [] => false
  | u :: rest => isLower u && rest.length ≤ 31 && rest.all fun v => isLower v || isDigit v || v = 0x2D

/-- `/^[A-Z0-9][A-Z0-9._-]{0,63}:AC-\d{3}$/u`. -/
def isAcId (t : Text) : Bool :=
  let digits := t.drop (t.length - 3)
  let front := t.take (t.length - 3)
  let name := front.take (front.length - 4)
  digits.length = 3 && digits.all isDigit && front.drop (front.length - 4) = js ":AC-"
    && match name with
      | [] => false
      | u :: rest => (isUpper u || isDigit u) && rest.length ≤ 63
          && rest.all fun v => isUpper v || isDigit v || v ∈ js "._-"

/-- `/^[A-Za-z]:/u`. -/
def hasDrive : Text → Bool
  | u :: 0x3A :: _ => isUpper u || isLower u
  | _ => false

/-- A letter of `/[a-z]/iu`, which folds two units beyond ASCII into them. -/
def isSchemeLetter (u : UInt16) : Bool := isUpper u || isLower u || u = 0x17F || u = 0x212A

/-- `/^[a-z][a-z0-9+.-]*:/iu`. -/
def hasScheme : Text → Bool
  | [] => false
  | u :: rest =>
      isSchemeLetter u
        && ((rest.dropWhile fun v => isSchemeLetter v || isDigit v || v ∈ js "+.-").head? = some 0x3A)

/-- `/[\0-\x1f\x7f*?[\]{}<>$]/u`. -/
def isPathSpecial (u : UInt16) : Bool := u.toNat ≤ 0x1F || u = 0x7F || u ∈ js "*?[]\x7b\x7d<>$"

/-- `exactPath`: a relative path in its normal form, which does not leave its
root and has nothing in it that stands for another path. -/
def isExactPath (t : Text) : Bool :=
  t ≠ [] && t = trim t
    && (t.splitOn 0x2F).all (fun part => part ≠ [] && part ≠ js "." && part ≠ js "..")
    && !t.any (fun u => u = 0x5C) && !hasDrive t && !hasScheme t && !t.any isPathSpecial

/-- The witness of a slot has the shape of its method. -/
def witnessFits : Method → SlotWitness → Bool
  | .visual, .target _ => true
  | .visual, _ => false
  | _, .path path => isExactPath path
  | _, _ => false

/-- The checks of one slot, but for its name being new. -/
def Slot.valid (slot : Slot) : Bool :=
  isSlotId slot.slot && slot.requiredAssurance.all (fun a => a ∈ methodAssurance slot.method)
    && witnessFits slot.method slot.witness

/-- What `normalizeVerificationContracts` asks of one contract. -/
structure Accepted (contract : Contract) : Prop where
  clauseId : isAcId contract.clauseId = true
  combination : contract.combination = .any → contract.reason.any (· ≠ []) = true
  primary : contract.primary ≠ []
  names : (contract.slots.map Slot.slot).Nodup
  slots : ∀ slot ∈ contract.slots, slot.valid = true

instance (contract : Contract) : Decidable (Accepted contract) :=
  decidable_of_iff
    (isAcId contract.clauseId = true
      ∧ (contract.combination = .any → contract.reason.any (· ≠ []) = true)
      ∧ contract.primary ≠ [] ∧ (contract.slots.map Slot.slot).Nodup
      ∧ ∀ slot ∈ contract.slots, slot.valid = true)
    ⟨fun h => ⟨h.1, h.2.1, h.2.2.1, h.2.2.2.1, h.2.2.2.2⟩,
      fun h => ⟨h.clauseId, h.combination, h.primary, h.names, h.slots⟩⟩

def maxRows : Nat := 1000

def contractInvalid (message : Text) : Failure :=
  .singularityFlow message (some (js "SPEC_VERIFICATION_CONTRACT_INVALID"))

/-- The first slot that is not valid, or has a name of the list or of an earlier slot. -/
def firstInvalid : List Text → List Slot → Option Slot
  | _, [] => none
  | names, slot :: rest =>
      if !slot.valid || slot.slot ∈ names then some slot else firstInvalid (slot.slot :: names) rest

/-- The check of one contract, behind those with the given criteria. -/
def normalizeContract (toUpperCase : Text → Text) (seen : List Text) (contract : Contract) :
    Except Failure Contract :=
  let clauseId := toUpperCase contract.clauseId
  if !isAcId clauseId || clauseId ∈ seen then
    .error (contractInvalid (js "verificationContracts names "
      ++ (if clauseId = [] then js "a criterion" else clauseId) ++ js " invalidly or twice."))
  else if contract.combination = .any && !contract.reason.any (· ≠ []) then
    .error (contractInvalid (js "The contract of " ++ clauseId ++ js " has an invalid combination."))
  else if contract.primary = [] then
    .error (contractInvalid (js "The contract of " ++ clauseId ++ js " has no primary witness."))
  else
    match firstInvalid [] contract.slots with
    | some slot =>
        .error (contractInvalid
          (js "The contract of " ++ clauseId ++ js " has an invalid slot " ++ slot.slot ++ js "."))
    | none => .ok { contract with clauseId }

/-- The contracts of a list, one after another. -/
def normalizeFrom (toUpperCase : Text → Text) : List Text → List Contract → Except Failure (List Contract)
  | _, [] => .ok []
  | seen, contract :: rest => do
      let normalized ← normalizeContract toUpperCase seen contract
      let others ← normalizeFrom toUpperCase (normalized.clauseId :: seen) rest
      return normalized :: others

/-- `normalizeVerificationContracts`. -/
def normalizeVerificationContracts (toUpperCase : Text → Text) (contracts : List Contract) :
    Except Failure (List Contract) :=
  if contracts.length > maxRows then
    .error (contractInvalid (js "verificationContracts must be a list."))
  else normalizeFrom toUpperCase [] contracts

section Normalized

variable {toUpperCase : Text → Text} {contract normalized : Contract} {seen : List Text}

theorem firstInvalid_eq_none {names : List Text} {slots : List Slot}
    (h : firstInvalid names slots = none) :
    (∀ slot ∈ slots, slot.valid = true ∧ slot.slot ∉ names) ∧ (slots.map Slot.slot).Nodup := by
  induction slots generalizing names with
  | nil => exact ⟨nofun, List.nodup_nil⟩
  | cons slot rest ih =>
      rw [firstInvalid] at h
      split at h
      · cases h
      · next hslot =>
          simp only [Bool.or_eq_true, Bool.not_eq_true', decide_eq_true_eq, not_or,
            Bool.not_eq_false] at hslot
          obtain ⟨hrest, hnodup⟩ := ih h
          refine ⟨List.forall_mem_cons.mpr ⟨hslot, fun s hs => ⟨(hrest s hs).1, fun hmem => ?_⟩⟩, ?_⟩
          · exact (hrest s hs).2 (List.mem_cons_of_mem _ hmem)
          · refine List.nodup_cons.mpr ⟨fun hmem => ?_, hnodup⟩
            obtain ⟨s, hs, hname⟩ := List.mem_map.mp hmem
            exact (hrest s hs).2 (hname ▸ List.mem_cons_self)

theorem accepted_of_normalizeContract
    (h : normalizeContract toUpperCase seen contract = .ok normalized) :
    Accepted normalized ∧ normalized.clauseId ∉ seen := by
  unfold normalizeContract at h
  dsimp only at h
  split at h
  · cases h
  · next hid =>
      split at h
      · cases h
      · next hcombination =>
          split at h
          · cases h
          · next hprimary =>
              split at h
              · cases h
              · next hslots =>
                  cases h
                  simp only [Bool.or_eq_true, Bool.not_eq_true', decide_eq_true_eq, not_or,
                    Bool.not_eq_false] at hid
                  simp only [Bool.and_eq_true, decide_eq_true_eq, Bool.not_eq_true', not_and,
                    Bool.not_eq_false] at hcombination
                  obtain ⟨hvalid, hnames⟩ := firstInvalid_eq_none hslots
                  exact ⟨⟨hid.1, hcombination, hprimary, hnames, fun s hs => (hvalid s hs).1⟩, hid.2⟩

/-- **What is read back from a record is accepted**, and each criterion has one contract. -/
theorem accepted_of_normalize {contracts result : List Contract}
    (h : normalizeVerificationContracts toUpperCase contracts = .ok result) :
    (∀ contract ∈ result, Accepted contract) ∧ (result.map Contract.clauseId).Nodup := by
  have hfrom : ∀ {seen contracts result}, normalizeFrom toUpperCase seen contracts = .ok result →
      (∀ contract ∈ result, Accepted contract ∧ contract.clauseId ∉ seen)
        ∧ (result.map Contract.clauseId).Nodup := by
    intro seen contracts
    induction contracts generalizing seen with
    | nil =>
        intro result h
        cases h
        exact ⟨nofun, List.nodup_nil⟩
    | cons contract rest ih =>
        intro result h
        obtain ⟨normalized, hcontract, h⟩ := bind_eq_ok_iff.mp h
        obtain ⟨others, hothers, h⟩ := bind_eq_ok_iff.mp h
        cases h
        obtain ⟨hmem, hnodup⟩ := ih hothers
        refine ⟨List.forall_mem_cons.mpr ⟨accepted_of_normalizeContract hcontract, fun c hc => ?_⟩, ?_⟩
        · exact ⟨(hmem c hc).1, fun hseen => (hmem c hc).2 (List.mem_cons_of_mem _ hseen)⟩
        · refine List.nodup_cons.mpr ⟨fun hdup => ?_, hnodup⟩
          obtain ⟨c, hc, hid⟩ := List.mem_map.mp hdup
          exact (hmem c hc).2 (hid ▸ List.mem_cons_self)
  unfold normalizeVerificationContracts at h
  split at h
  · cases h
  · obtain ⟨hmem, hnodup⟩ := hfrom h
    exact ⟨fun c hc => (hmem c hc).1, hnodup⟩

/-- Only the id of a contract is ever rewritten. -/
theorem normalizeContract_eq (h : normalizeContract toUpperCase seen contract = .ok normalized) :
    normalized = { contract with clauseId := toUpperCase contract.clauseId } := by
  unfold normalizeContract at h
  dsimp only at h
  split at h
  · cases h
  · split at h
    · cases h
    · split at h
      · cases h
      · split at h
        · cases h
        · exact (Except.ok.inj h).symm

theorem normalize_singleton {result : List Contract}
    (h : normalizeVerificationContracts toUpperCase [contract] = .ok result) :
    result = [{ contract with clauseId := toUpperCase contract.clauseId }] := by
  unfold normalizeVerificationContracts at h
  have hone : ¬ [contract].length > maxRows := Nat.not_lt.mpr (show 1 ≤ maxRows by decide)
  rw [if_neg hone] at h
  obtain ⟨normalized, hcontract, h⟩ := bind_eq_ok_iff.mp h
  cases h
  rw [normalizeContract_eq hcontract]

theorem firstInvalid_of_valid {names : List Text} {slots : List Slot}
    (hvalid : ∀ slot ∈ slots, slot.valid = true ∧ slot.slot ∉ names)
    (hnodup : (slots.map Slot.slot).Nodup) : firstInvalid names slots = none := by
  induction slots generalizing names with
  | nil => rfl
  | cons slot rest ih =>
      obtain ⟨⟨hslot, hname⟩, hrest⟩ := List.forall_mem_cons.mp hvalid
      obtain ⟨hnew, hnodup⟩ := List.nodup_cons.mp hnodup
      rw [firstInvalid, if_neg (by simp [hslot, hname])]
      refine ih (fun s hs => ⟨(hrest s hs).1, fun hmem => ?_⟩) hnodup
      rcases List.mem_cons.mp hmem with heq | hmem
      · exact hnew (heq ▸ List.mem_map_of_mem hs)
      · exact (hrest s hs).2 hmem

/-- An accepted contract is read back as it is, where upper case keeps its id. -/
theorem normalizeContract_of_accepted (hupper : ∀ t, isAcId t = true → toUpperCase t = t)
    (h : Accepted contract) (hseen : contract.clauseId ∉ seen) :
    normalizeContract toUpperCase seen contract = .ok contract := by
  have hslots : firstInvalid [] contract.slots = none :=
    firstInvalid_of_valid (fun s hs => ⟨h.slots s hs, List.not_mem_nil⟩) h.names
  have hcombination : ¬ (decide (contract.combination = .any) && !contract.reason.any (· ≠ [])) = true := by
    rw [Bool.and_eq_true, decide_eq_true_eq]
    rintro ⟨hany, hreason⟩
    rw [h.combination hany] at hreason
    cases hreason
  unfold normalizeContract
  rw [hupper _ h.clauseId]
  dsimp only
  rw [if_neg (by simp [h.clauseId, hseen]), if_neg hcombination, if_neg h.primary, hslots]

/-- Accepted contracts of different criteria are read back as they are. -/
theorem normalize_of_accepted (hupper : ∀ t, isAcId t = true → toUpperCase t = t)
    {contracts : List Contract} (h : ∀ contract ∈ contracts, Accepted contract)
    (hnodup : (contracts.map Contract.clauseId).Nodup) (hlength : contracts.length ≤ maxRows) :
    normalizeVerificationContracts toUpperCase contracts = .ok contracts := by
  have hfrom : ∀ {contracts : List Contract} {seen : List Text},
      (∀ contract ∈ contracts, Accepted contract ∧ contract.clauseId ∉ seen) →
      (contracts.map Contract.clauseId).Nodup →
      normalizeFrom toUpperCase seen contracts = .ok contracts := by
    intro contracts
    induction contracts with
    | nil => exact fun _ _ => rfl
    | cons contract rest ih =>
        intro seen h hnodup
        obtain ⟨⟨hcontract, hseen⟩, hrest⟩ := List.forall_mem_cons.mp h
        obtain ⟨hnew, hnodup⟩ := List.nodup_cons.mp hnodup
        rw [normalizeFrom]
        refine bind_eq_ok_iff.mpr ⟨contract, normalizeContract_of_accepted hupper hcontract hseen, ?_⟩
        refine bind_eq_ok_iff.mpr ⟨rest, ih (fun c hc => ⟨(hrest c hc).1, fun hmem => ?_⟩) hnodup, rfl⟩
        rcases List.mem_cons.mp hmem with heq | hmem
        · exact hnew (heq ▸ List.mem_map_of_mem hc)
        · exact (hrest c hc).2 hmem
  unfold normalizeVerificationContracts
  rw [if_neg (Nat.not_lt.mpr hlength)]
  exact hfrom (fun c hc => ⟨h c hc, List.not_mem_nil⟩) hnodup

theorem length_of_normalize {contracts result : List Contract}
    (h : normalizeVerificationContracts toUpperCase contracts = .ok result) :
    result.length = contracts.length ∧ contracts.length ≤ maxRows := by
  have hfrom : ∀ {contracts result : List Contract} {seen : List Text},
      normalizeFrom toUpperCase seen contracts = .ok result → result.length = contracts.length := by
    intro contracts
    induction contracts with
    | nil =>
        intro result seen h
        cases h
        rfl
    | cons contract rest ih =>
        intro result seen h
        obtain ⟨normalized, -, h⟩ := bind_eq_ok_iff.mp h
        obtain ⟨others, hothers, h⟩ := bind_eq_ok_iff.mp h
        cases h
        rw [List.length_cons, List.length_cons, ih hothers]
  unfold normalizeVerificationContracts at h
  split at h
  · cases h
  · next hlength => exact ⟨hfrom h, Nat.not_lt.mp hlength⟩

/-- What was read back from a record is read back again as it is. -/
theorem normalize_normalized (hupper : ∀ t, isAcId t = true → toUpperCase t = t)
    {contracts result : List Contract}
    (h : normalizeVerificationContracts toUpperCase contracts = .ok result) :
    normalizeVerificationContracts toUpperCase result = .ok result := by
  obtain ⟨haccepted, hnodup⟩ := accepted_of_normalize h
  obtain ⟨hlength, hle⟩ := length_of_normalize h
  exact normalize_of_accepted hupper haccepted hnodup (hlength ▸ hle)

end Normalized

/-! ## The contract of a criterion -/

/-- A contract, and whether the plan states it. -/
structure Effective where
  contract : Contract
  stated : Bool
deriving DecidableEq

/-- The default contract of a criterion with these planned tests. -/
def defaultContract (clauseId : Text) (tests : List Text) : Contract where
  clauseId
  combination := .all
  reason := none
  slots := [⟨js "tests", .test, .primary, .paths (tests.insertionSort LeUnits), none⟩]

/-- `testDisposition`: whether a planned clause is tested. -/
inductive Disposition where
  | applicable | notApplicable | nonTest | unspecified
deriving DecidableEq

/-- A planned claim: the row of a clause in a plan. -/
structure PlannedClaim where
  expectedPaths : List Text
  tests : List Text
  testDisposition : Disposition
  testReason : Option Text
  verificationCriterion : Option Text
  deviation : Option Text
  fulfillment : Option Text
  steps : List Text
  observableResult : Option Text
deriving DecidableEq

/-- `contracts.get(clauseId)`, of the map from criteria that a list of contracts
becomes: a later contract replaces an earlier one. -/
def contractFor (contracts : List Contract) (clauseId : Text) : Option Contract :=
  contracts.reverse.find? fun contract => contract.clauseId = clauseId

/-- `effectiveContract`. -/
def effectiveContract (clauseId : Text) (contracts : List Contract) (claim : Option PlannedClaim) :
    Option Effective :=
  match contractFor contracts clauseId with
  | some stated => some ⟨stated, true⟩
  | none =>
      if claim.any fun c => c.testDisposition = .notApplicable then none
      else some ⟨defaultContract clauseId ((claim.map PlannedClaim.tests).getD []), false⟩

theorem contractFor_mem {contracts : List Contract} {clauseId : Text} {contract : Contract}
    (h : contractFor contracts clauseId = some contract) :
    contract ∈ contracts ∧ contract.clauseId = clauseId := by
  have hmem := List.mem_of_find?_eq_some h
  have hid := List.find?_some h
  exact ⟨List.mem_reverse.mp hmem, of_decide_eq_true hid⟩

/-- A criterion is held to a contract that was accepted, or to a default one. -/
def Held (contract : Contract) : Prop :=
  Accepted contract ∨ ∃ clauseId tests, contract = defaultContract clauseId tests

theorem held_of_effectiveContract {clauseId : Text} {contracts : List Contract}
    {claim : Option PlannedClaim} {effective : Effective}
    (haccepted : ∀ contract ∈ contracts, Accepted contract)
    (h : effectiveContract clauseId contracts claim = some effective) : Held effective.contract := by
  unfold effectiveContract at h
  split at h
  · next stated hstated =>
      cases h
      exact .inl (haccepted stated (contractFor_mem hstated).1)
  · split at h
    · cases h
    · cases h
      exact .inr ⟨_, _, rfl⟩

/-- `testSlotFor`: the test slot that names the file, or one that names none. -/
def testSlotFor (contract : Contract) (testSource : Text) : Option Slot :=
  (contract.tests.find? fun slot => slot.witness.path? = some testSource).or
    (contract.tests.find? fun slot => slot.witness.path?.isNone)

theorem testSlotFor_mem {contract : Contract} {testSource : Text} {slot : Slot}
    (h : testSlotFor contract testSource = some slot) : slot ∈ contract.tests := by
  unfold testSlotFor at h
  rcases Option.or_eq_some_iff.mp h with h | ⟨-, h⟩ <;> exact List.mem_of_find?_eq_some h

/-- A supporting slot comes first for the file of a primary one. -/
def Shadowed (contract : Contract) : Prop :=
  ∃ supporting ∈ contract.tests, ∃ primary ∈ contract.tests,
    supporting.role = .supporting ∧ primary.role = .primary
      ∧ ∃ path, primary.witness.path? = some path
        ∧ (contract.tests.find? fun slot => slot.witness.path? = some path) = some supporting

/-- Every test slot of an accepted contract names its file. -/
theorem Accepted.path {contract : Contract} (h : Accepted contract) {slot : Slot}
    (hslot : slot ∈ contract.tests) : slot.witness.path?.isSome := by
  obtain ⟨hmem, htest⟩ := List.mem_filter.mp hslot
  have hvalid := h.slots slot hmem
  simp only [Slot.valid, Bool.and_eq_true] at hvalid
  have hfits := hvalid.2
  rw [show slot.method = .test from of_decide_eq_true htest] at hfits
  cases hwitness : slot.witness with
  | path p => rfl
  | target t =>
      rw [hwitness] at hfits
      cases hfits
  | paths l =>
      rw [hwitness] at hfits
      cases hfits

/-- Among slots that name their files, the first one that names the file is served. -/
theorem Accepted.testSlotFor {contract : Contract} (h : Accepted contract) (testSource : Text) :
    testSlotFor contract testSource
      = contract.tests.find? fun slot => slot.witness.path? = some testSource := by
  have hnone : (contract.tests.find? fun slot => slot.witness.path?.isNone) = none := by
    rw [List.find?_eq_none]
    intro slot hslot hpath
    have hsome := h.path hslot
    rw [Option.isNone_iff_eq_none] at hpath
    rw [hpath] at hsome
    cases hsome
  unfold Verification.testSlotFor
  rw [hnone, Option.or_none]

/-- A test slot asks for no more than an exact test reaches. -/
theorem Accepted.requiredAssurance_le {contract : Contract} (h : Accepted contract) {slot : Slot}
    (hslot : slot ∈ contract.slots) (htest : slot.method = .test) :
    (slot.requiredAssurance.getD .none).rank ≤ Assurance.exactLocalObserved.rank := by
  have hvalid := h.slots slot hslot
  simp only [Slot.valid, Bool.and_eq_true, htest] at hvalid
  cases hrequired : slot.requiredAssurance with
  | none => exact Nat.zero_le _
  | some required =>
      have hmem : required ∈ methodAssurance .test := by
        have hall := hvalid.1.2
        rw [hrequired] at hall
        exact of_decide_eq_true hall
      rcases List.mem_cons.mp hmem with rfl | hmem
      · decide
      · rw [List.mem_singleton.mp hmem]
        exact Nat.le_refl _

/-- A contract without its supporting slots. -/
def Contract.primaryOnly (contract : Contract) : Contract := { contract with slots := contract.primary }

theorem Accepted.primaryOnly {contract : Contract} (h : Accepted contract) :
    Accepted contract.primaryOnly where
  clauseId := h.clauseId
  combination := h.combination
  primary := by
    rw [Contract.primary, Contract.primaryOnly, Contract.primary, List.filter_filter]
    simp only [Bool.and_self]
    exact h.primary
  names := h.names.sublist (List.filter_sublist.map _)
  slots slot hslot := h.slots slot (List.mem_filter.mp hslot).1

/-- The names of a held contract's slots differ. -/
theorem Held.names {contract : Contract} (h : Held contract) :
    (contract.slots.map Slot.slot).Nodup := by
  rcases h with h | ⟨_, _, rfl⟩
  · exact h.names
  · exact List.nodup_singleton _

theorem Held.slot_inj {contract : Contract} (h : Held contract) {a b : Slot}
    (ha : a ∈ contract.slots) (hb : b ∈ contract.slots) (hname : a.slot = b.slot) : a = b :=
  List.inj_on_of_nodup_map h.names ha hb hname

theorem Held.primary {contract : Contract} (h : Held contract) : contract.primary ≠ [] := by
  rcases h with h | ⟨_, _, rfl⟩
  · exact h.primary
  · exact List.cons_ne_nil _ _

end Verification

end SingularityFlow
