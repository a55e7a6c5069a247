/-
# Approval policies

`normalizedApproval` reads a policy from a configuration.  A policy names
authorities and a number of people, or a chain of reviews; the normalized form
of a chain also has the authorities of its steps, and the sum of their numbers,
so that whatever reads the one form can read the other.
-/
import SingularityFlow.Initiative.State
import SingularityFlow.Lib.Coercion

namespace SingularityFlow

open Ecma Ecma.Value

namespace Initiatives

/-! ## Values of a configuration -/

def object (value : Value) (label : Text) : Except Failure (List (Text × Value)) :=
  match value with
  | .obj members => .ok members
  | _ => .error (refuse (label ++ js " must be an object."))

def array (value : Value) (label : Text) : Except Failure (List Value) :=
  match value with
  | .arr items => .ok items
  | _ => .error (refuse (label ++ js " must be an array."))

def unsafeId (label : Text) : Failure :=
  refuse (label ++ js " must be a safe identifier containing letters, numbers, "
    ++ js "dots, underscores, or hyphens.")

def safeId (value : Option Value) (label : Text) : Except Failure Text :=
  match value.getD .null with
  | .str id => if isSafeId id then .ok id else .error (unsafeId label)
  | _ => .error (unsafeId label)

def unique (values : List Text) (label : Text) : Except Failure Unit :=
  failIf (¬ values.Nodup) (refuse (label ++ js " contains duplicates."))

/-- `[...value]`. -/
def spread : Value → Except Failure (List Value)
  | .arr items => .ok items
  | .str t => .ok ((scalars t).map fun c => .str (unitsOfScalar c))
  | _ => .error (.typeError (js "value is not iterable"))

/-- A member that is neither absent nor null. -/
def present? (name : String) (value : Value) : Option Value :=
  match member? (js name) value with
  | none | some .null => none
  | some v => some v

/-- `Number.isInteger(value) && value >= least`, and which number it is. -/
def wholeFrom (least : Int) : Value → Option Nat
  | .num x => (x.integer?.filter (least ≤ ·)).map Int.toNat
  | _ => none

/-- `id.replaceAll('-', ' ')`. -/
def spaced (id : Text) : Text := id.map fun u => if u = 0x2D then 0x20 else u

/-! ## Policies -/

def chainStep (label : Text) (index : Nat) (value : Value) : Except Failure ChainStep := do
  let name := label ++ js ".chain step " ++ natText (index + 1)
  let _ ← object value name
  let authority ← safeId (member? (js "authority") value) (name ++ js " authority")
  let some minimum := wholeFrom 1 ((present? "minimum" value).getD (.num (Number.ofNat 1)))
    | .error (refuse (label ++ js ".chain step '" ++ authority
        ++ js "' minimum must be a positive integer."))
  .ok ⟨authority, ((present? "label" value).map Value.toText).getD (spaced authority), minimum⟩

/-- The steps of a chain that is not null. -/
def chainSteps (value : Value) (label : Text) : Except Failure (List ChainStep) := do
  let chain ← array value (label ++ js ".chain")
  failIf (chain = [])
    (refuse (label ++ js ".chain must contain at least one review step."))
  let steps ← sequence (chain.mapIdx (chainStep label))
  unique (steps.map ChainStep.authority) (label ++ js ".chain authorities")
  .ok steps

def normalizedApprovalChain (value : Value) (label : Text) :
    Except Failure (Option (List ChainStep)) :=
  match present? "chain" value with
  | none => .ok none
  | some chain => (chainSteps chain label).map some

def approvalMode (value : Value) (label : Text) : Except Failure ApprovalMode :=
  match (present? "mode" value).getD (.str (js "bundle")) with
  | .str mode =>
      if mode = js "individual" then .ok .individual
      else if mode = js "bundle" then .ok .bundle
      else if mode = js "none" then .ok .none
      else .error (refuse (label ++ js ".mode must be individual, bundle, or none."))
  | _ => .error (refuse (label ++ js ".mode must be individual, bundle, or none."))

/-- The authorities that are written beside a chain may only repeat its own. -/
def contradicts (value : Value) (chain : List ChainStep) : Except Failure Bool :=
  match present? "authorities" value with
  | none => .ok false
  | some authorities => do
      let written ← spread authorities
      .ok (joinItems written ≠ joinWith (js ",") (chain.map ChainStep.authority))

def writtenAuthorities (value : Value) (label : Text) : Except Failure (List Text) := do
  let written ← spread ((present? "authorities" value).getD (.arr []))
  sequence (written.map fun id => safeId (some id) (label ++ js ".authorities entry"))

def minimumOf (mode : ApprovalMode) (value : Value) (label : Text) : Except Failure Nat :=
  let fallback := if mode = .none then 0 else 1
  match wholeFrom 0 ((present? "minimum" value).getD (.num (Number.ofNat fallback))) with
  | none => .error (refuse (label ++ js ".minimum must be a non-negative integer."))
  | some minimum =>
      if mode ≠ .none ∧ minimum < 1 then
        .error (refuse (label ++ js ".minimum must be at least 1 when approval is required."))
      else .ok minimum

def normalizedApproval (value : Value) (label : Text) : Except Failure ApprovalPolicy := do
  let _ ← object value label
  let mode ← approvalMode value label
  let chain ← normalizedApprovalChain value label
  let allowSelfApproval := match member? (js "allowSelfApproval") value with
    | some (.bool false) => false
    | _ => true
  match chain with
  | some steps => do
      failIf (mode = .none) (refuse (label ++ js ".chain cannot be combined with mode none."))
      let contradicted ← contradicts value steps
      failIf (contradicted = true)
        (refuse (label ++ js " must set either authorities or chain, not both."))
      .ok
        { mode
          authorities := steps.map ChainStep.authority
          minimum := (steps.map ChainStep.minimum).sum
          allowSelfApproval
          chain := some steps }
  | none => do
      let authorities ← writtenAuthorities value label
      unique authorities (label ++ js ".authorities")
      let minimum ← minimumOf mode value label
      .ok { mode, authorities, minimum, allowSelfApproval, chain := none }

/-- A policy that `normalizedApproval` returns. -/
structure Normalized (policy : ApprovalPolicy) : Prop where
  authorities_safe : ∀ id ∈ policy.authorities, isSafeId id = true
  authorities_nodup : policy.authorities.Nodup
  minimum_pos : policy.mode ≠ .none → 1 ≤ policy.minimum
  chain_mode : policy.chain.isSome → policy.mode ≠ .none
  chain_steps : ∀ steps, policy.chain = some steps → steps ≠ []
    ∧ policy.authorities = steps.map ChainStep.authority
    ∧ policy.minimum = (steps.map ChainStep.minimum).sum ∧ ∀ step ∈ steps, 1 ≤ step.minimum

theorem safeId_eq_ok {value : Option Value} {label id : Text} (h : safeId value label = .ok id) :
    isSafeId id = true := by
  unfold safeId at h
  split at h
  · split at h
    · next hsafe =>
        obtain rfl := Except.ok.inj h
        exact hsafe
    · cases h
  · cases h

theorem wholeFrom_le {least : Int} {value : Value} {n : Nat} (h : wholeFrom least value = some n) :
    least ≤ n := by
  unfold wholeFrom at h
  split at h
  · obtain ⟨k, hk, rfl⟩ := Option.map_eq_some_iff.mp h
    have hle := (Option.filter_eq_some_iff.mp hk).2
    simp only [decide_eq_true_eq] at hle
    omega
  · cases h

theorem chainStep_eq_ok {label : Text} {index : Nat} {value : Value} {step : ChainStep}
    (h : chainStep label index value = .ok step) :
    isSafeId step.authority = true ∧ 1 ≤ step.minimum := by
  simp only [chainStep, bind_eq_ok_iff] at h
  obtain ⟨_, -, authority, hauthority, h⟩ := h
  split at h
  · next minimum hminimum =>
      obtain rfl := Except.ok.inj h
      have hle := wholeFrom_le hminimum
      exact ⟨safeId_eq_ok hauthority, by simpa using hle⟩
  · cases h

theorem chainSteps_eq_ok {value : Value} {label : Text} {steps : List ChainStep}
    (h : chainSteps value label = .ok steps) : steps ≠ []
      ∧ (steps.map ChainStep.authority).Nodup
      ∧ ∀ step ∈ steps, isSafeId step.authority = true ∧ 1 ≤ step.minimum := by
  simp only [chainSteps, bind_eq_ok_iff, failIf_eq_ok_iff, unique, not_not] at h
  obtain ⟨chain, -, _, hnonempty, steps', hsteps, _, hnodup, h⟩ := h
  obtain rfl := Except.ok.inj h
  have hresults := sequence_eq_ok hsteps
  refine ⟨fun hnil => hnonempty ?_, hnodup, fun step hmem => ?_⟩
  · have hlength := congrArg List.length hresults
    rw [hnil] at hlength
    exact List.eq_nil_of_length_eq_zero (by simpa using hlength)
  · have hmem' : Except.ok step ∈ chain.mapIdx (chainStep label) := by
      rw [hresults]
      exact List.mem_map_of_mem hmem
    obtain ⟨i, hi, hstep⟩ := List.mem_mapIdx.mp hmem'
    exact chainStep_eq_ok hstep

/-- What is written beside a chain, and what stands without one. -/
theorem normalizedApproval_normalized {value : Value} {label : Text} {policy : ApprovalPolicy}
    (h : normalizedApproval value label = .ok policy) : Normalized policy := by
  simp only [normalizedApproval, bind_eq_ok_iff] at h
  obtain ⟨_, -, mode, -, chain, hchain, h⟩ := h
  cases chain with
  | some steps =>
      simp only [bind_eq_ok_iff, failIf_eq_ok_iff] at h
      obtain ⟨_, hmode, _, -, _, -, h⟩ := h
      obtain rfl := Except.ok.inj h
      have hspec : steps ≠ [] ∧ (steps.map ChainStep.authority).Nodup
          ∧ ∀ step ∈ steps, isSafeId step.authority = true ∧ 1 ≤ step.minimum := by
        unfold normalizedApprovalChain at hchain
        split at hchain
        · cases hchain
        · next v _ =>
            cases hsteps : chainSteps v label with
            | error e =>
                rw [hsteps] at hchain
                cases hchain
            | ok steps' =>
                rw [hsteps] at hchain
                obtain rfl := Option.some.inj (Except.ok.inj hchain)
                exact chainSteps_eq_ok hsteps
      obtain ⟨hnonempty, hnodup, hall⟩ := hspec
      refine ⟨fun id hmem => ?_, hnodup, fun _ => ?_, fun _ => hmode, fun steps' hsteps' => ?_⟩
      · obtain ⟨step, hstep, rfl⟩ := List.mem_map.mp hmem
        exact (hall step hstep).1
      · obtain ⟨first, rest, rfl⟩ := List.exists_cons_of_ne_nil hnonempty
        have hfirst := (hall first List.mem_cons_self).2
        simp only [List.map_cons, List.sum_cons]
        omega
      · obtain rfl := Option.some.inj hsteps'
        exact ⟨hnonempty, rfl, rfl, fun step hmem => (hall step hmem).2⟩
  | none =>
      simp only [bind_eq_ok_iff, failIf_eq_ok_iff, unique, not_not] at h
      obtain ⟨authorities, hauthorities, _, hnodup, minimum, hminimum, h⟩ := h
      obtain rfl := Except.ok.inj h
      refine ⟨fun id hmem => ?_, hnodup, fun hmode => ?_, fun hsome => ?_, fun _ hsome => ?_⟩
      · obtain ⟨written, -, hids⟩ := bind_eq_ok_iff.mp hauthorities
        obtain ⟨v, -, hid⟩ := (mem_of_sequence hids).mp hmem
        exact safeId_eq_ok hid
      · unfold minimumOf at hminimum
        simp only at hminimum
        split at hminimum
        · cases hminimum
        · split at hminimum
          · cases hminimum
          · next hnot =>
              obtain rfl := Except.ok.inj hminimum
              simp only [not_and, not_lt] at hnot
              exact hnot hmode
      · cases hsome
      · cases hsome

end Initiatives

end SingularityFlow
