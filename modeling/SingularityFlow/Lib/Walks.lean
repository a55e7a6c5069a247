/-
# Walks, and what all of them have in common

A walk goes from place to place; `before` are the places that it passes before its
last.  Three questions about all walks are answered by equations from place to
place, and the answers are the extreme solutions of the equations:

* does every walk to a place pass a place that holds something (`passed_of_walks`,
  `walks_of_passed`), the greatest solution;
* does every walk from a place avoid an end of one kind (`avoids_of_walks`,
  `walks_of_avoids`), the greatest solution;
* does every walk from a place pass a place that holds something, before it ends
  and after finitely many steps (`Escapes`), the least solution.

The last two differ on walks that go on for ever.
-/
import Mathlib.Data.List.Basic
import Mathlib.Logic.Function.Iterate

namespace Walks

variable {ι : Type} {next : ι → ι → Prop}

inductive Walk (next : ι → ι → Prop) : ι → List ι → ι → Prop
  | here (a : ι) : Walk next a [] a
  | step {a b c : ι} {before : List ι} : Walk next a before b → next b c →
      Walk next a (before ++ [b]) c

theorem Walk.cons {a b c : ι} {before : List ι} (hab : next a b) (h : Walk next b before c) :
    Walk next a (a :: before) c := by
  induction h with
  | here => exact (Walk.here a).step hab
  | step _ hstep ih => exact ih.step hstep

theorem Walk.first {a c : ι} {before : List ι} (h : Walk next a before c) :
    (before = [] ∧ a = c) ∨ ∃ b rest, before = a :: rest ∧ next a b ∧ Walk next b rest c := by
  induction h with
  | here => exact Or.inl ⟨rfl, rfl⟩
  | @step d c before _ hstep ih =>
      refine Or.inr ?_
      rcases ih with ⟨rfl, rfl⟩ | ⟨b, rest, rfl, hab, hrest⟩
      · exact ⟨c, [], rfl, hstep, .here c⟩
      · exact ⟨b, rest ++ [d], rfl, hab, hrest.step hstep⟩

/-! ## What every walk has passed -/

section Passed

variable {start : ι} {holds : ι → Prop}

/-- Every walk from the start to a place passes one that holds. -/
def AllPass (next : ι → ι → Prop) (start : ι) (holds : ι → Prop) (place : ι) : Prop :=
  ∀ before, Walk next start before place → ∃ a ∈ before, holds a

/-- What solves the equation of a place that is reached is true of its walks. -/
theorem walks_of_passed (passed : ι → Prop)
    (h : ∀ b, passed b → b ≠ start
      ∧ ∀ a before, Walk next start before a → next a b → passed a ∨ holds a)
    {place : ι} (hplace : passed place) : AllPass next start holds place := by
  intro before hwalk
  induction hwalk with
  | here => exact absurd rfl (h start hplace).1
  | @step b c before hwalk hstep ih =>
      rcases (h c hplace).2 b before hwalk hstep with hpassed | hholds
      · obtain ⟨a, hmem, ha⟩ := ih hpassed
        exact ⟨a, List.mem_append_left [b] hmem, ha⟩
      · exact ⟨b, List.mem_append_right before (List.mem_singleton_self b), hholds⟩

/-- What is true of the walks to a place is true of those to the places before. -/
theorem passed_of_walks {b : ι} (h : AllPass next start holds b) :
    b ≠ start ∧ ∀ a, next a b → AllPass next start holds a ∨ holds a := by
  refine ⟨?_, fun a hstep => ?_⟩
  · rintro rfl
    obtain ⟨a, hmem, -⟩ := h [] (.here b)
    exact absurd hmem List.not_mem_nil
  · by_cases hholds : holds a
    · exact Or.inr hholds
    · refine Or.inl fun before hwalk => ?_
      obtain ⟨d, hmem, hd⟩ := h (before ++ [a]) (hwalk.step hstep)
      rcases List.mem_append.mp hmem with hbefore | hlast
      · exact ⟨d, hbefore, hd⟩
      · rw [List.mem_singleton.mp hlast] at hd
        exact absurd hd hholds

end Passed

/-! ## How walks end -/

section Ends

variable {ends : ι → Prop}

/-- No walk from a place comes to an end. -/
def AllAvoid (next : ι → ι → Prop) (ends : ι → Prop) (place : ι) : Prop :=
  ∀ before b, Walk next place before b → ¬ ends b

theorem walks_of_avoids (avoids : ι → Prop)
    (h : ∀ a, avoids a → ¬ ends a ∧ ∀ b, next a b → avoids b) {place : ι} (hplace : avoids place) : AllAvoid next ends place := by
  intro before b hwalk
  have hlast : avoids b := by
    induction hwalk with
    | here => exact hplace
    | step _ hstep ih => exact (h _ ih).2 _ hstep
  exact (h b hlast).1

theorem avoids_of_walks {a : ι} (h : AllAvoid next ends a) :
    ¬ ends a ∧ ∀ b, next a b → AllAvoid next ends b :=
  ⟨h [] a (.here a), fun _ hstep before c hwalk => h (a :: before) c (hwalk.cons hstep)⟩

end Ends

/-! ## Walks that stay free -/

section Free

variable {free ends : ι → Prop}

/-- A walk over free places comes to an end, or goes on for ever. -/
def Escapes (next : ι → ι → Prop) (free ends : ι → Prop) (place : ι) : Prop :=
  (∃ before b, Walk next place before b ∧ (∀ a ∈ before, free a) ∧ free b ∧ ends b)
    ∨ ∃ walk : Nat → ι, walk 0 = place ∧ ∀ n, free (walk n) ∧ next (walk n) (walk (n + 1))

theorem Escapes.first {place : ι} (h : Escapes next free ends place) :
    free place ∧ (ends place ∨ ∃ b, next place b ∧ Escapes next free ends b) := by
  rcases h with ⟨before, b, hwalk, hfree, hb, hends⟩ | ⟨walk, rfl, hwalk⟩
  · rcases hwalk.first with ⟨rfl, rfl⟩ | ⟨c, rest, rfl, hstep, hrest⟩
    · exact ⟨hb, Or.inl hends⟩
    · obtain ⟨hplace, hfree⟩ := List.forall_mem_cons.mp hfree
      exact ⟨hplace, Or.inr ⟨c, hstep, Or.inl ⟨rest, b, hrest, hfree, hb, hends⟩⟩⟩
  · exact ⟨(hwalk 0).1, Or.inr ⟨walk 1, (hwalk 0).2, Or.inr ⟨fun n => walk (n + 1), rfl,
      fun n => hwalk (n + 1)⟩⟩⟩

/-- Places that are free, and from each of which the walk ends or goes on to
another of them. -/
theorem escapes_of_closed (closed : ι → Prop)
    (h : ∀ a, closed a → free a ∧ (ends a ∨ ∃ b, next a b ∧ closed b)) {place : ι}
    (hplace : closed place) : Escapes next free ends place := by
  by_cases hfinite : ∃ before b, Walk next place before b ∧ (∀ a ∈ before, free a) ∧ free b ∧ ends b
  · exact Or.inl hfinite
  -- the places from which no free walk ends have one of them behind each
  let Endless := {a : ι // closed a
    ∧ ¬ ∃ before b, Walk next a before b ∧ (∀ a ∈ before, free a) ∧ free b ∧ ends b}
  have hnext : ∀ a : Endless, ∃ b : Endless, next a.1 b.1 := by
    rintro ⟨a, hclosed, hnever⟩
    obtain ⟨hfree, hends | ⟨b, hstep, hb⟩⟩ := h a hclosed
    · exact absurd ⟨[], a, .here a, fun _ h => absurd h List.not_mem_nil, hfree, hends⟩ hnever
    · refine ⟨⟨b, hb, ?_⟩, hstep⟩
      rintro ⟨before, c, hwalk, hbefore, hc⟩
      exact hnever ⟨a :: before, c, hwalk.cons hstep, List.forall_mem_cons.mpr ⟨hfree, hbefore⟩, hc⟩
  choose successor hsuccessor using hnext
  refine Or.inr ⟨fun n => (successor^[n] ⟨place, hplace, hfinite⟩).1, rfl, fun n => ?_⟩
  refine ⟨(h _ (successor^[n] ⟨place, hplace, hfinite⟩).2.1).1, ?_⟩
  have hstep := hsuccessor (successor^[n] ⟨place, hplace, hfinite⟩)
  rwa [← Function.iterate_succ_apply' successor n] at hstep

end Free

end Walks
