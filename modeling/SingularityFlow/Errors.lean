/-
# What the program throws

An operation that can throw returns `Except Failure`.  A `SingularityFlowError`
carries the message and the code its callers test; of the errors that the
language and its library raise, only the constructor is kept.
-/
import SingularityFlow.Lib.Text

namespace SingularityFlow

open Ecma

/-- A thrown error. -/
inductive Failure where
  | singularityFlow (message : Text) (code : Option Text)
  | typeError (message : Text)
  | rangeError
  | decodeError
deriving DecidableEq

/-- A `SingularityFlowError` without a code. -/
def refuse (message : Text) : Failure := .singularityFlow message none

/-- `if (p) throw e`. -/
def failIf (p : Prop) [Decidable p] (e : Failure) : Except Failure Unit :=
  if p then .error e else .ok ()

@[simp] theorem failIf_eq_ok_iff {p : Prop} [Decidable p] {e : Failure} {u : Unit} :
    failIf p e = .ok u ↔ ¬ p := by
  unfold failIf
  split <;> simp_all

/-- A sequence of two computations succeeds when both do. -/
theorem bind_eq_ok_iff {ε α β : Type} {x : Except ε α} {f : α → Except ε β} {b : β} :
    (x >>= f) = .ok b ↔ ∃ a, x = .ok a ∧ f a = .ok b := by
  cases x with
  | error e => simp [bind, Except.bind]
  | ok a => simp [bind, Except.bind]

theorem bind_of_ok {ε α β : Type} {x : Except ε α} {a : α} {f : α → Except ε β}
    (h : x = .ok a) : (x >>= f) = f a := by
  rw [h]
  rfl

/-- A sequence of two computations fails with the failure of one of them. -/
theorem bind_eq_error {ε α β : Type} {x : Except ε α} {f : α → Except ε β} {e : ε}
    (h : (x >>= f) = .error e) : x = .error e ∨ ∃ a, x = .ok a ∧ f a = .error e := by
  cases x with
  | error e' => exact .inl (congrArg Except.error (Except.error.inj h))
  | ok a => exact .inr ⟨a, rfl, h⟩

/-- The results of a list of computations, or the first failure. -/
def sequence {ε α : Type} : List (Except ε α) → Except ε (List α)
  | [] => .ok []
  | .error e :: _ => .error e
  | .ok a :: rest =>
      match sequence rest with
      | .error e => .error e
      | .ok as => .ok (a :: as)

section Sequence

variable {ε α : Type}

theorem sequence_ok (as : List α) : sequence (as.map (Except.ok (ε := ε))) = .ok as := by
  induction as with
  | nil => rfl
  | cons a as ih => rw [List.map_cons, sequence, ih]

/-- A list of computations succeeds only when each of them does. -/
theorem sequence_eq_ok {l : List (Except ε α)} {as : List α} (h : sequence l = .ok as) :
    l = as.map Except.ok := by
  induction l generalizing as with
  | nil => cases h; rfl
  | cons x l ih =>
      cases x with
      | error e => cases h
      | ok a =>
          rw [sequence] at h
          split at h
          · cases h
          · next as' h' =>
            cases h
            rw [ih h', List.map_cons]

/-- Computations that all succeed, by their results. -/
theorem exists_map_ok {l : List (Except ε α)} (h : ∀ x ∈ l, ∃ a, x = .ok a) :
    ∃ as : List α, l = as.map .ok := by
  induction l with
  | nil => exact ⟨[], rfl⟩
  | cons x l ih =>
      obtain ⟨⟨a, rfl⟩, hrest⟩ := List.forall_mem_cons.mp h
      obtain ⟨as, rfl⟩ := ih hrest
      exact ⟨a :: as, rfl⟩

/-- Each of the computations succeeds. -/
theorem ok_of_mem_sequence {l : List (Except ε α)} {as : List α} (h : sequence l = .ok as) :
    ∀ x ∈ l, ∃ a, x = .ok a := by
  intro x hmem
  rw [sequence_eq_ok h] at hmem
  obtain ⟨a, -, ha⟩ := List.mem_map.mp hmem
  exact ⟨a, ha.symm⟩

variable {β : Type} {f : β → Except ε α} {l : List β} {as : List α}

theorem mem_of_sequence (h : sequence (l.map f) = .ok as) {a : α} :
    a ∈ as ↔ ∃ b ∈ l, f b = .ok a := by
  rw [← List.mem_map, sequence_eq_ok h, List.mem_map]
  simp

theorem mem_zip_of_sequence (h : sequence (l.map f) = .ok as) {b : β} {a : α} :
    (b, a) ∈ l.zip as ↔ b ∈ l ∧ f b = .ok a := by
  have heq := sequence_eq_ok h
  clear h
  induction l generalizing as with
  | nil => simp
  | cons c l ih =>
      cases as with
      | nil => cases heq
      | cons d as =>
          obtain ⟨hhead, htail⟩ := List.cons.inj heq
          rw [List.zip_cons_cons, List.mem_cons, Prod.mk.injEq, List.mem_cons]
          constructor
          · rintro (⟨rfl, rfl⟩ | hmem)
            · exact ⟨.inl rfl, hhead⟩
            · exact ⟨.inr ((ih htail).mp hmem).1, ((ih htail).mp hmem).2⟩
          · rintro ⟨rfl | hb, ha⟩
            · exact .inl ⟨rfl, Except.ok.inj (ha.symm.trans hhead)⟩
            · exact .inr ((ih htail).mpr ⟨hb, ha⟩)

theorem exists_of_sequence_mapIdx {f : Nat → β → Except ε α} (h : sequence (l.mapIdx f) = .ok as)
    {a : α} (hmem : a ∈ as) : ∃ i b, f i b = .ok a := by
  have hmem' : Except.ok a ∈ l.mapIdx f := by
    rw [sequence_eq_ok h]
    exact List.mem_map_of_mem hmem
  obtain ⟨i, hi, hf⟩ := List.mem_mapIdx.mp hmem'
  exact ⟨i, _, hf⟩

theorem exists_sequence_iff :
    (∃ as, sequence (l.map f) = .ok as) ↔ ∀ b ∈ l, ∃ a, f b = .ok a := by
  induction l with
  | nil => simp [sequence]
  | cons b l ih =>
      rw [List.forall_mem_cons, ← ih, List.map_cons]
      cases f b with
      | error e => simp [sequence]
      | ok a =>
          rw [sequence]
          cases sequence (l.map f) with
          | error e => simp
          | ok as => simp

theorem length_of_sequence (h : sequence (l.map f) = .ok as) : as.length = l.length := by
  simpa using (congrArg List.length (sequence_eq_ok h)).symm

end Sequence

/-! ## Tests that can throw -/

section Tests

variable {ε α : Type}

/-- `list.some(test)`: the first success, or failure, ends it. -/
def someM (test : α → Except ε Bool) : List α → Except ε Bool
  | [] => .ok false
  | a :: rest => do
      let holds ← test a
      if holds then .ok true else someM test rest

theorem someM_eq_false_iff {test : α → Except ε Bool} {l : List α} :
    someM test l = .ok false ↔ ∀ a ∈ l, test a = .ok false := by
  induction l with
  | nil => simp [someM]
  | cons a l ih =>
      rw [someM, bind_eq_ok_iff, List.forall_mem_cons, ← ih]
      constructor
      · rintro ⟨holds, ha, h⟩
        cases holds with
        | false => exact ⟨ha, h⟩
        | true => cases h
      · rintro ⟨ha, h⟩
        exact ⟨false, ha, h⟩

/-- Where no test throws, the loop is the plain one. -/
theorem someM_eq_ok {test : α → Except ε Bool} {holds : α → Bool} {l : List α}
    (h : ∀ a ∈ l, test a = .ok (holds a)) : someM test l = .ok (l.any holds) := by
  induction l with
  | nil => rfl
  | cons a l ih =>
      rw [someM, h a (List.mem_cons_self ..), List.any_cons,
        ih fun b hb => h b (List.mem_cons_of_mem _ hb)]
      cases holds a with
      | false => rfl
      | true => rfl

theorem exists_of_someM_eq_true {test : α → Except ε Bool} {l : List α}
    (h : someM test l = .ok true) : ∃ a ∈ l, test a = .ok true := by
  induction l with
  | nil => cases h
  | cons a l ih =>
      rw [someM, bind_eq_ok_iff] at h
      obtain ⟨holds, ha, h⟩ := h
      cases holds with
      | false =>
          obtain ⟨b, hb, hholds⟩ := ih h
          exact ⟨b, List.mem_cons_of_mem _ hb, hholds⟩
      | true => exact ⟨a, List.mem_cons_self .., ha⟩

end Tests

end SingularityFlow
