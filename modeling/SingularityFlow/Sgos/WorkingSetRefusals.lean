/-
# What a composition is refused for

The codes of refusals tell them apart.  Only the check behind the two loops
gives the refusal for a budget: the header, the repeated sources and the whole
validator, with its walks through payloads, give others (`Spares`).
-/
import SingularityFlow.Sgos.WorkingSets

namespace SingularityFlow

open Ecma

namespace Sgos

variable {scanText : Text → Text → List Text} {header : WorkingSetHeader}

/-! ## Computations that spare the budget -/

/-- A computation that is not refused for its budget. -/
def Spares {α : Type} (x : Except Failure α) : Prop := x ≠ .error budgetTooSmall

section Spares

variable {α β : Type}

theorem Spares.ok (a : α) : Spares (.ok a) := nofun

theorem Spares.bind {x : Except Failure α} {f : α → Except Failure β} (hx : Spares x)
    (hf : ∀ a, Spares (f a)) : Spares (x >>= f) := by
  intro h
  obtain h | ⟨a, -, h⟩ := bind_eq_error h
  · exact hx h
  · exact hf a h

theorem Spares.map {x : Except Failure α} (hx : Spares x) (f : α → β) : Spares (x.map f) := by
  cases x with
  | error e => exact fun h => hx (congrArg Except.error (Except.error.inj h))
  | ok a => exact Spares.ok _

theorem Spares.sequence : ∀ {l : List (Except Failure α)}, (∀ x ∈ l, Spares x) →
    Spares (SingularityFlow.sequence l)
  | [], _ => Spares.ok _
  | .error e :: _, h => fun he => h _ (List.mem_cons_self ..)
      (congrArg Except.error (Except.error.inj he))
  | .ok a :: rest, h => by
      have ih := Spares.sequence fun x hx => h x (List.mem_cons_of_mem _ hx)
      rw [SingularityFlow.sequence]
      cases hrest : SingularityFlow.sequence rest with
      | error e => rw [hrest] at ih; exact fun he => ih (congrArg _ (Except.error.inj he))
      | ok as => exact Spares.ok _

/-- Another code is another refusal. -/
theorem Spares.failure {message : Text} {code : String}
    (h : js code ≠ js "SGOS_WORKING_SET_BUDGET_TOO_SMALL_FOR_OMISSIONS") :
    Spares (.error (memoryFailure message code) : Except Failure α) := fun he =>
  h (Option.some.inj (Failure.singularityFlow.inj (Except.error.inj he)).2)

theorem Spares.contract {message : Text} :
    Spares (.error (contractInvalid message) : Except Failure α) := Spares.failure (by decide)

theorem Spares.secret {message : Text} :
    Spares (.error (secretRefused message) : Except Failure α) := Spares.failure (by decide)

theorem Spares.failIf {p : Prop} [Decidable p] {e : Failure}
    (he : Spares (.error e : Except Failure Unit)) : Spares (SingularityFlow.failIf p e) := by
  unfold SingularityFlow.failIf
  split
  · exact he
  · exact Spares.ok ()

end Spares

/-! ## The header and the references -/

theorem spares_requireString {value label : Text} : Spares (requireString value label) :=
  .failIf .contract

theorem spares_requireDigest {value label : Text} : Spares (requireDigest value label) :=
  .failIf .contract

theorem spares_workingSetBase : Spares (workingSetBase header) :=
  .bind spares_requireString fun _ => .bind spares_requireString fun _ =>
    .bind spares_requireDigest fun _ => .bind spares_requireDigest fun _ =>
    .bind spares_requireDigest fun _ => .bind spares_requireDigest fun _ => .ok _

theorem spares_refuseRepeats : ∀ ordered : List Source, Spares (refuseRepeats ordered)
  | [] => .ok ()
  | [_] => .ok ()
  | left :: right :: rest => by
      rw [refuseRepeats]
      split
      · exact .failure (by decide)
      · exact spares_refuseRepeats (right :: rest)

theorem spares_checkDependencies : ∀ (dependencies : List MemoryDependency) (index : Nat)
    (previous : Option Text), Spares (checkDependencies index previous dependencies)
  | [], _, _ => .ok ()
  | _ :: rest, _, _ =>
      .bind spares_requireString fun _ => .bind (.failIf .contract) fun _ =>
        .bind spares_requireDigest fun _ => .bind (.failIf .contract) fun _ =>
        spares_checkDependencies rest _ _

theorem spares_checkMemoryRef (ref : MemoryRef) : Spares (checkMemoryRef ref) := by
  refine .bind spares_requireString fun _ => .bind (.failIf .contract) fun _ => ?_
  refine .bind spares_requireString fun _ => .bind (.failIf .contract) fun _ => ?_
  refine .bind spares_requireDigest fun _ => .bind (.failIf .contract) fun _ => ?_
  refine .bind spares_requireString fun _ => .bind (.failIf .contract) fun _ => ?_
  refine .bind (spares_checkDependencies _ _ _) fun _ => .bind spares_requireString fun _ => ?_
  refine .bind spares_requireDigest fun _ => ?_
  split
  · exact .failIf (.failure (by decide))
  · exact .failIf .contract

theorem spares_validateSgosMemoryRef (ref : MemoryRef) : Spares (validateSgosMemoryRef ref) :=
  .bind (spares_checkMemoryRef ref) fun _ =>
    .bind (.failIf (.failure (by decide))) fun _ => .ok _

/-! ## Payloads -/

theorem spares_cloneItems {items : List Value}
    (h : ∀ v ∈ items, ∀ location, Spares (cloneJson location v)) (location : Text) :
    ∀ index, ∀ x ∈ cloneItems location index items, Spares x := by
  induction items with
  | nil => exact fun _ x hx => absurd hx List.not_mem_nil
  | cons v rest ih =>
      intro index x hx
      rw [cloneItems] at hx
      rcases List.mem_cons.mp hx with rfl | hx
      · exact h v (List.mem_cons_self ..) _
      · exact ih (fun w hw => h w (List.mem_cons_of_mem _ hw)) _ x hx

theorem spares_cloneMembers {members : Members}
    (h : ∀ p ∈ members, ∀ location, Spares (cloneJson location p.2)) (location : Text) :
    ∀ p ∈ cloneMembers location members, Spares p.2 := by
  induction members with
  | nil => exact fun p hp => absurd hp List.not_mem_nil
  | cons member rest ih =>
      obtain ⟨name, v⟩ := member
      intro p hp
      rw [cloneMembers] at hp
      rcases List.mem_cons.mp hp with rfl | hp
      · dsimp only
        split
        · exact .contract
        · exact h (name, v) (List.mem_cons_self ..) _
      · exact ih (fun w hw => h w (List.mem_cons_of_mem _ hw)) p hp

theorem spares_cloneJson (v : Value) : ∀ location, Spares (cloneJson location v) := by
  induction v with
  | null => exact fun _ => .ok _
  | bool b => exact fun _ => .ok _
  | str t => exact fun _ => .ok _
  | num x =>
      intro location
      rw [cloneJson]
      split
      · exact .ok _
      · exact .contract
  | arr items ih =>
      intro location
      rw [cloneJson]
      exact (Spares.sequence (spares_cloneItems ih location 0)).map _
  | obj members ih =>
      intro location
      rw [cloneJson]
      refine (Spares.sequence fun x hx => ?_).map _
      obtain ⟨p, hp, rfl⟩ := List.mem_map.mp hx
      exact (spares_cloneMembers ih location p ((propertyOrder_perm _).mem_iff.mp hp)).map _

theorem spares_payloadBytes (v : Value) : Spares (payloadBytes v) := by
  unfold payloadBytes
  split
  · exact .ok _
  · exact .ok _
  · exact (spares_cloneJson _ _).map _

theorem spares_refuseSecretText (value location : Text) :
    Spares (refuseSecretText scanText value location) := by
  unfold refuseSecretText
  split
  · exact .ok ()
  · exact .secret

theorem spares_refuseSerialized (serialized : Bool) (v : Value) (location : Text) :
    Spares (refuseSerialized scanText serialized v location) := by
  unfold refuseSerialized
  split
  · exact .bind (spares_cloneJson _ _) fun _ => spares_refuseSecretText _ _
  · exact .ok ()

theorem spares_assertItems {items : List Value}
    (h : ∀ v ∈ items, ∀ serialized location,
      Spares (assertNoSecretShapedPayload scanText serialized location v)) (location : Text) :
    ∀ index, ∀ x ∈ assertItems scanText location index items, Spares x := by
  induction items with
  | nil => exact fun _ x hx => absurd hx List.not_mem_nil
  | cons v rest ih =>
      intro index x hx
      rw [assertItems] at hx
      rcases List.mem_cons.mp hx with rfl | hx
      · exact h v (List.mem_cons_self ..) _ _
      · exact ih (fun w hw => h w (List.mem_cons_of_mem _ hw)) _ x hx

theorem spares_assertMembers {members : Members}
    (h : ∀ p ∈ members, ∀ serialized location,
      Spares (assertNoSecretShapedPayload scanText serialized location p.2)) (location : Text) :
    ∀ p ∈ assertMembers scanText location members, Spares p.2 := by
  induction members with
  | nil => exact fun p hp => absurd hp List.not_mem_nil
  | cons member rest ih =>
      obtain ⟨name, v⟩ := member
      intro p hp
      rw [assertMembers] at hp
      rcases List.mem_cons.mp hp with rfl | hp
      · dsimp only
        split
        · exact .secret
        · exact h (name, v) (List.mem_cons_self ..) _ _
      · exact ih (fun w hw => h w (List.mem_cons_of_mem _ hw)) p hp

theorem spares_assertNoSecretShapedPayload (v : Value) : ∀ serialized location,
    Spares (assertNoSecretShapedPayload scanText serialized location v) := by
  induction v with
  | null => exact fun _ _ => .ok _
  | bool b => exact fun _ _ => .ok _
  | num x => exact fun _ _ => .ok _
  | str t =>
      intro serialized location
      rw [assertNoSecretShapedPayload]
      exact spares_refuseSecretText _ _
  | arr items ih =>
      intro serialized location
      rw [assertNoSecretShapedPayload]
      exact .bind (spares_refuseSerialized _ _ _) fun _ =>
        .bind (.sequence (spares_assertItems ih location 0)) fun _ => .ok _
  | obj members ih =>
      intro serialized location
      rw [assertNoSecretShapedPayload]
      refine .bind (spares_refuseSerialized _ _ _) fun _ => .bind (.sequence fun x hx => ?_) fun _ => .ok _
      obtain ⟨p, hp, rfl⟩ := List.mem_map.mp hx
      exact spares_assertMembers ih location p ((propertyOrder_perm _).mem_iff.mp hp)

/-! ## The validator -/

theorem spares_validateEntries : ∀ (entries : List WorkingSetEntry) (previous : Option Text),
    Spares (validateEntries scanText previous entries)
  | [], _ => .ok _
  | _ :: rest, _ =>
      .bind (spares_validateSgosMemoryRef _) fun _ => .bind (.failIf .secret) fun _ =>
        .bind (spares_assertNoSecretShapedPayload _ _ _) fun _ =>
        .bind (spares_payloadBytes _) fun _ => .bind (.failIf (.failure (by decide))) fun _ =>
        .bind (.failIf .contract) fun _ => .bind (spares_validateEntries rest _) fun _ => .ok _

theorem spares_validateOmissions : ∀ (omissions : List Omission) (index : Nat)
    (previous : Option Text), Spares (validateOmissions index previous omissions)
  | [], _, _ => .ok _
  | _ :: rest, _, _ =>
      .bind spares_requireString fun _ => .bind (.failIf .contract) fun _ =>
        .bind spares_requireString fun _ => .bind (.failIf .contract) fun _ =>
        spares_validateOmissions rest _ _

theorem spares_workingSetCore (record : WorkingSet) : Spares (workingSetCore scanText record) := by
  refine .bind spares_requireString fun _ => .bind spares_requireString fun _ => ?_
  refine .bind spares_requireDigest fun _ => .bind spares_requireDigest fun _ => ?_
  refine .bind spares_requireDigest fun _ => .bind spares_requireDigest fun _ => ?_
  refine .bind (.failIf .contract) fun _ => .bind (.failIf .contract) fun _ => ?_
  refine .bind (.failIf .contract) fun _ => .bind (spares_validateEntries _ _) fun _ => ?_
  refine .bind (.failIf .contract) fun _ => .bind (spares_validateOmissions _ _ _) fun _ => ?_
  exact .bind spares_requireDigest fun _ => .ok _

/-- **The validator never refuses for the budget of a composition.** -/
theorem spares_validateSgosWorkingSet (record : WorkingSet) (checkpoint : Option Text) :
    Spares (validateSgosWorkingSet scanText record checkpoint) :=
  .bind (spares_workingSetCore record) fun _ => .bind (.failIf (.failure (by decide))) fun _ =>
    .bind (.failIf (.failure (by decide))) fun _ => .bind (.failIf (.failure (by decide))) fun _ =>
    .ok _

end Sgos

end SingularityFlow
