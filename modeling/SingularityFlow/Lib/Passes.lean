/-
# Passes until nothing changes

A pass goes over rules in their order, and applies each one that changes the
state as it is by then.  Passes are repeated, with fuel, until one of them has
changed nothing.  What each rule keeps, the passes keep (`settle_keeps`); and
where each rule that changes the state lowers a rank, the rank is fuel enough, and
no rule changes the state that is left (`settle_stable`).

The second part is about values at places, where a rule finds a new value for a
place from the values of all: from values that the rule can only lower, the passes
come to a fixed point of it (`settle_descends`).
-/
import Mathlib.Algebra.GroupWithZero.Nat
import Mathlib.Data.List.Forall2
import Mathlib.Data.Nat.Basic
import Mathlib.Logic.Function.Basic
import Mathlib.Order.Monotone.Defs

namespace Passes

/-! ## Passes -/

/-- Whether a rule changes a state, and the state that it makes. -/
structure Action (S ρ : Type) where
  changes : S → ρ → Bool
  apply : S → ρ → S

section Rules

variable {S ρ : Type} (w : Action S ρ)

/-- One pass, and whether it has changed anything. -/
def pass : List ρ → S → S × Bool
  | [], s => (s, false)
  | r :: rules, s =>
      if w.changes s r then ((pass rules (w.apply s r)).1, true) else pass rules s

/-- Passes until one changes nothing, with fuel. -/
def settle (rules : List ρ) : Nat → S → S
  | 0, s => s
  | fuel + 1, s =>
      let after := pass w rules s
      if after.2 then settle rules fuel after.1 else after.1

variable {w}

theorem pass_keeps (P : S → Prop) : ∀ {rules : List ρ} {s : S},
    (∀ {s r}, P s → r ∈ rules → w.changes s r = true → P (w.apply s r)) → P s →
      P (pass w rules s).1 := by
  intro rules
  induction rules with
  | nil => exact fun _ hs => hs
  | cons r rules ih =>
      intro s h hs
      rw [pass]
      split
      · next hchanges =>
          exact ih (fun hs hr => h hs (List.mem_cons_of_mem r hr)) (h hs List.mem_cons_self hchanges)
      · exact ih (fun hs hr => h hs (List.mem_cons_of_mem r hr)) hs

/-- **The invariant rule.** -/
theorem settle_keeps (P : S → Prop) {rules : List ρ}
    (h : ∀ {s r}, P s → r ∈ rules → w.changes s r = true → P (w.apply s r)) :
    ∀ {fuel : Nat} {s : S}, P s → P (settle w rules fuel s) := by
  intro fuel
  induction fuel with
  | zero => exact fun hs => hs
  | succ fuel ih =>
      intro s hs
      rw [settle]
      split
      · exact ih (pass_keeps P h hs)
      · exact pass_keeps P h hs

theorem pass_unchanged : ∀ {rules : List ρ} {s : S}, (pass w rules s).2 = false →
    (pass w rules s).1 = s ∧ ∀ r ∈ rules, w.changes s r = false := by
  intro rules
  induction rules with
  | nil => exact fun _ => ⟨rfl, fun _ h => absurd h List.not_mem_nil⟩
  | cons r rules ih =>
      intro s h
      rw [pass] at h ⊢
      split at h
      · cases h
      · next hchanges =>
          obtain ⟨hsame, hrules⟩ := ih h
          rw [if_neg hchanges]
          exact ⟨hsame, List.forall_mem_cons.mpr ⟨Bool.eq_false_iff.mpr hchanges, hrules⟩⟩

section Related

variable {S' ρ' : Type} {w' : Action S' ρ'}

/-- Rules that change related states alike, and leave them related, make passes that do. -/
theorem pass_related (R : S → S' → Prop) (Q : ρ → ρ' → Prop)
    (hchanges : ∀ {s s' r r'}, R s s' → Q r r' → w'.changes s' r' = w.changes s r)
    (happly : ∀ {s s' r r'}, R s s' → Q r r' → w.changes s r = true → R (w.apply s r) (w'.apply s' r'))
    {rules : List ρ} {rules' : List ρ'} (hrules : List.Forall₂ Q rules rules') :
    ∀ {s s'}, R s s' → R (pass w rules s).1 (pass w' rules' s').1 ∧
      (pass w' rules' s').2 = (pass w rules s).2 := by
  induction hrules with
  | nil => exact fun hs => ⟨hs, rfl⟩
  | @cons r r' _ _ hrule _ ih =>
      intro s s' hs
      rw [pass, pass, hchanges hs hrule]
      split
      · next hchange => exact ⟨(ih (happly hs hrule hchange)).1, rfl⟩
      · exact ih hs

/-- **The simulation rule.**  Rules that change related states alike, and leave them
related, settle in related states. -/
theorem settle_related (R : S → S' → Prop) (Q : ρ → ρ' → Prop)
    (hchanges : ∀ {s s' r r'}, R s s' → Q r r' → w'.changes s' r' = w.changes s r)
    (happly : ∀ {s s' r r'}, R s s' → Q r r' → w.changes s r = true → R (w.apply s r) (w'.apply s' r'))
    {rules : List ρ} {rules' : List ρ'} (hrules : List.Forall₂ Q rules rules') :
    ∀ {fuel : Nat} {s s'}, R s s' → R (settle w rules fuel s) (settle w' rules' fuel s') := by
  intro fuel
  induction fuel with
  | zero => exact fun hs => hs
  | succ fuel ih =>
      intro s s' hs
      obtain ⟨hafter, hsame⟩ := pass_related R Q hchanges happly hrules hs
      rw [settle, settle, hsame]
      split
      · exact ih hafter
      · exact hafter

end Related

section Rank

variable (P : S → Prop) (rank : S → Nat) {rules : List ρ}

theorem pass_rank_le (h : ∀ {s r}, P s → r ∈ rules → w.changes s r = true → P (w.apply s r))
    (hrank : ∀ {s r}, P s → r ∈ rules → w.changes s r = true → rank (w.apply s r) < rank s)
    {s : S} (hs : P s) : rank (pass w rules s).1 ≤ rank s
      ∧ ((pass w rules s).2 = true → rank (pass w rules s).1 < rank s) := by
  induction rules generalizing s with
  | nil => exact ⟨le_rfl, fun hchanged => by cases hchanged⟩
  | cons r rules ih =>
      have hrest := fun {s : S} (hs : P s) => ih (fun hs hr => h hs (List.mem_cons_of_mem r hr))
        (fun hs hr => hrank hs (List.mem_cons_of_mem r hr)) hs
      rw [pass]
      split
      · next hchanges =>
          have hlt := (hrest (h hs List.mem_cons_self hchanges)).1.trans_lt
            (hrank hs List.mem_cons_self hchanges)
          exact ⟨hlt.le, fun _ => hlt⟩
      · exact hrest hs

/-- **The rule of termination**: where what changes a state lowers its rank, the
rank is fuel enough for a state that nothing changes. -/
theorem settle_stable
    (h : ∀ {s r}, P s → r ∈ rules → w.changes s r = true → P (w.apply s r))
    (hrank : ∀ {s r}, P s → r ∈ rules → w.changes s r = true → rank (w.apply s r) < rank s) :
    ∀ {fuel : Nat} {s : S}, P s → rank s < fuel →
      ∀ r ∈ rules, w.changes (settle w rules fuel s) r = false := by
  intro fuel
  induction fuel with
  | zero => exact fun _ hlt => absurd hlt (Nat.not_lt_zero _)
  | succ fuel ih =>
      intro s hs hlt
      rw [settle]
      split
      · next hchanged =>
          have := (pass_rank_le P rank h hrank hs).2 hchanged
          exact ih (pass_keeps P h hs) (by omega)
      · next hchanged =>
          obtain ⟨hsame, hrules⟩ := pass_unchanged (Bool.eq_false_iff.mpr hchanged)
          rw [hsame]
          exact hrules

end Rank

end Rules

/-- A rank that counts: fewer members have a property that is stronger, and that one
of them has lost. -/
theorem countP_lt {α : Type} {p q : α → Bool} : ∀ {l : List α}, (∀ a ∈ l, p a = true → q a = true) →
    ∀ {a : α}, a ∈ l → q a = true → p a = false → l.countP p < l.countP q := by
  intro l
  induction l with
  | nil => exact fun _ _ h => absurd h List.not_mem_nil
  | cons b l ih =>
      intro hle a hmem hq hp
      obtain ⟨hb, hl⟩ := List.forall_mem_cons.mp hle
      rcases List.mem_cons.mp hmem with rfl | hmem
      · rw [List.countP_cons_of_neg (by simp [hp]), List.countP_cons_of_pos hq]
        exact Nat.lt_succ_of_le (List.countP_mono_left hl)
      · have hlt := ih hl hmem hq hp
        cases hpb : p b with
        | false =>
            rw [List.countP_cons_of_neg (by simp [hpb])]
            exact hlt.trans_le (List.sublist_cons_self b l).countP_le
        | true =>
            rw [List.countP_cons_of_pos hpb, List.countP_cons_of_pos (hb hpb)]
            omega

/-! ## Values at places -/

section Places

variable {ι V : Type} [DecidableEq ι]

theorem sum_update_le {rank : V → Nat} {values : ι → V} {place : ι} {value : V}
    (hle : rank value ≤ rank (values place)) : ∀ places : List ι,
    (places.map fun i => rank (Function.update values place value i)).sum
      ≤ (places.map fun i => rank (values i)).sum := by
  intro places
  induction places with
  | nil => exact le_rfl
  | cons i places ih =>
      simp only [List.map_cons, List.sum_cons]
      by_cases hi : i = place
      · subst hi
        rw [Function.update_self]
        omega
      · rw [Function.update_of_ne hi]
        omega

theorem sum_update_lt {rank : V → Nat} {values : ι → V} {place : ι} {value : V}
    (hlt : rank value < rank (values place)) : ∀ {places : List ι}, place ∈ places →
    (places.map fun i => rank (Function.update values place value i)).sum
      < (places.map fun i => rank (values i)).sum := by
  intro places hmem
  induction places with
  | nil => exact absurd hmem List.not_mem_nil
  | cons i places ih =>
      have hle := sum_update_le hlt.le places
      simp only [List.map_cons, List.sum_cons]
      by_cases hi : i = place
      · subst hi
        rw [Function.update_self]
        omega
      · rw [Function.update_of_ne hi]
        have := ih ((List.mem_cons.mp hmem).resolve_left fun h => hi h.symm)
        omega

omit [DecidableEq ι] in
theorem sum_le_of_bound {rank : V → Nat} {bound : Nat} (h : ∀ value, rank value ≤ bound)
    (values : ι → V) : ∀ places : List ι,
    (places.map fun i => rank (values i)).sum ≤ places.length * bound := by
  intro places
  induction places with
  | nil => simp
  | cons i places ih =>
      rw [List.map_cons, List.sum_cons, List.length_cons, Nat.add_mul, Nat.one_mul, Nat.add_comm]
      exact Nat.add_le_add ih (h (values i))

variable [DecidableEq V]

/-- Each place is given the value that a rule finds for it. -/
def assign (next : (ι → V) → ι → V) : Action (ι → V) ι where
  changes values place := next values place ≠ values place
  apply values place := Function.update values place (next values place)

variable {next : (ι → V) → ι → V} {places : List ι}

theorem assign_stable {values : ι → V} {place : ι}
    (h : (assign next).changes values place = false) : next values place = values place := by
  simpa [assign] using h

variable [PartialOrder V]

/-- The rule can only lower the values of these places. -/
def Lowers (next : (ι → V) → ι → V) (places : List ι) (values : ι → V) : Prop :=
  ∀ place ∈ places, next values place ≤ values place

/-- From values that a monotone rule can only lower, passes come to values that it
keeps; the sum of the ranks is fuel enough. -/
theorem settle_descends (hmono : ∀ {values values' : ι → V}, values ≤ values' →
      ∀ place, next values place ≤ next values' place)
    (rank : V → Nat) (hrank : StrictMono rank) {bound : Nat} (hbound : ∀ value, rank value ≤ bound)
    {values : ι → V} (hlowers : Lowers next places values) {fuel : Nat}
    (hfuel : places.length * bound < fuel) :
    ∀ place ∈ places, next (settle (assign next) places fuel values) place
      = settle (assign next) places fuel values place := by
  intro place hplace
  refine assign_stable (settle_stable (Lowers next places)
    (fun values => (places.map fun i => rank (values i)).sum) ?_ ?_ hlowers
    ((sum_le_of_bound hbound values places).trans_lt hfuel) place hplace)
  · intro values i hvalues hi _ j hj
    have hle : Function.update values i (next values i) ≤ values := by
      intro k
      by_cases hk : k = i
      · subst hk
        rw [Function.update_self]
        exact hvalues k hi
      · rw [Function.update_of_ne hk]
    by_cases hij : j = i
    · subst hij
      change next (Function.update values j (next values j)) j
        ≤ Function.update values j (next values j) j
      rw [Function.update_self]
      exact hmono hle j
    · change next (Function.update values i (next values i)) j
        ≤ Function.update values i (next values i) j
      rw [Function.update_of_ne hij]
      exact (hmono hle j).trans (hvalues j hj)
  · intro values i hvalues hi hchanges
    exact sum_update_lt (hrank ((hvalues i hi).lt_of_ne (of_decide_eq_true hchanges))) hi

end Places

end Passes
