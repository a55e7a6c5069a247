/-
# Reading level by level

A reader of linked values keeps a map from keys to the values that it has read,
and a frontier of keys to read next.  It reads a whole frontier at once; the
keys that its values name, and that the map does not have, are the next one.

Two facts hold of the map at each level (`Explored`): a value in it is the one
of its key, and what a value names is in the map or in the frontier.  So where
the frontier is empty, the map is closed.  Where a rank goes down from a key to
those that its value names, the largest rank of a frontier is fuel enough
(`levels_eq_some`).
-/
import SingularityFlow.Lib.Collections

namespace BreadthFirst

open Ecma

section Levels

variable {κ ν : Type} [DecidableEq κ] (read : List κ → κ → ν) (next : ν → List κ)

/-- `map.has(key)`. -/
def mapHas (map : List (κ × ν)) (key : κ) : Bool := (mapGet map key).isSome

/-- The values of a frontier are set one after the other; behind each, what it
names and the map does not have yet. -/
def level (frontier : List κ) (known : List (κ × ν)) : List (κ × ν) × List κ :=
  frontier.foldl
    (fun state key =>
      let known := mapSet state.1 key (read frontier key)
      (known, state.2 ++ (next (read frontier key)).filter (!mapHas known ·)))
    (known, [])

/-- Levels until a frontier is empty, with fuel for the levels. -/
def levels : Nat → List κ → List (κ × ν) → Option (List (κ × ν))
  | _, [], known => some known
  | 0, _ :: _, _ => none
  | fuel + 1, key :: rest, known =>
      let state := level read next (key :: rest) known
      levels fuel ((distinct state.2).filter (!mapHas state.1 ·)) state.1

/-! ## What is known -/

theorem mapHas_mapSet {map : List (κ × ν)} {key key' : κ} {value : ν} :
    mapHas (mapSet map key value) key' = (decide (key' = key) || mapHas map key') := by
  by_cases h : key' = key
  · subst h
    simp [mapHas]
  · simp [mapHas, mapGet_mapSet_of_ne h, h]

variable (value : κ → ν)

/-- A map of values, and a frontier behind it. -/
structure Explored (known : List (κ × ν)) (frontier : List κ) : Prop where
  exact : ∀ {key v}, mapGet known key = some v → v = value key
  closed : ∀ {key}, mapHas known key = true →
    ∀ key' ∈ next (value key), mapHas known key' = true ∨ key' ∈ frontier

variable {read next value}

theorem Explored.start (frontier : List κ) : Explored next value [] frontier where
  exact h := by cases h
  closed h := by cases h

/-- The values of a part of the frontier have been set. -/
theorem explored_foldl {frontier : List κ} : ∀ (part : List κ) (known : List (κ × ν)) (named : List κ),
    (∀ key ∈ part, read frontier key = value key) →
      Explored next value known (part ++ named) →
        let state := part.foldl
          (fun state key =>
            let known := mapSet state.1 key (read frontier key)
            (known, state.2 ++ (next (read frontier key)).filter (!mapHas known ·)))
          (known, named)
        Explored next value state.1 state.2
          ∧ (∀ key, mapHas state.1 key = (decide (key ∈ part) || mapHas known key))
          ∧ ∀ key ∈ state.2, key ∈ named ∨ ∃ from' ∈ part, key ∈ next (value from') := by
  intro part
  induction part with
  | nil =>
      intro known named _ h
      exact ⟨h, fun key => by simp, fun key hkey => Or.inl hkey⟩
  | cons key rest ih =>
      intro known named hread h
      have hkey := hread key List.mem_cons_self
      have hstep : Explored next value (mapSet known key (read frontier key))
          (rest ++ (named ++ (next (read frontier key)).filter
            (!mapHas (mapSet known key (read frontier key)) ·))) := by
        refine ⟨fun {k v} hget => ?_, fun {k} hhas k' hk' => ?_⟩
        · by_cases heq : k = key
          · subst heq
            rw [mapGet_mapSet_self, Option.some.injEq] at hget
            rw [← hget, hkey]
          · rw [mapGet_mapSet_of_ne heq] at hget
            exact h.exact hget
        · cases hknown : mapHas (mapSet known key (read frontier key)) k' with
          | true => exact Or.inl rfl
          | false =>
              have hne := hknown
              rw [mapHas_mapSet, Bool.or_eq_false_iff, decide_eq_false_iff_not] at hne
              refine Or.inr ?_
              by_cases heq : k = key
              · subst heq
                refine List.mem_append_right _ (List.mem_append_right _ (List.mem_filter.mpr ?_))
                exact ⟨hkey ▸ hk', by rw [hknown]; rfl⟩
              · rw [mapHas_mapSet, decide_eq_false heq, Bool.false_or] at hhas
                rcases h.closed hhas k' hk' with hin | hin
                · rw [hne.2] at hin
                  cases hin
                · rcases List.mem_cons.mp hin with rfl | hin
                  · exact absurd rfl hne.1
                  · rcases List.mem_append.mp hin with hin | hin
                    · exact List.mem_append_left _ hin
                    · exact List.mem_append_right _ (List.mem_append_left _ hin)
      obtain ⟨hexplored, hhas, hnamed⟩ := ih _ _
        (fun other hother => hread other (List.mem_cons_of_mem key hother)) hstep
      refine ⟨hexplored, fun k => ?_, fun k hk => ?_⟩
      · rw [List.foldl_cons, hhas, mapHas_mapSet, ← Bool.or_assoc]
        congr 1
        simp only [List.mem_cons, Bool.decide_or]
        exact Bool.or_comm _ _
      · rcases hnamed k hk with hin | ⟨from', hfrom, hin⟩
        · rcases List.mem_append.mp hin with hin | hin
          · exact Or.inl hin
          · exact Or.inr ⟨key, List.mem_cons_self, hkey ▸ (List.mem_filter.mp hin).1⟩
        · exact Or.inr ⟨from', List.mem_cons_of_mem key hfrom, hin⟩

/-- **Reading level by level ends, with a closed map of values that holds the
frontier.**  `Good` says of which keys the reader answers with the value. -/
theorem levels_eq_some (Good : κ → Prop) (rank : κ → Nat)
    (hread : ∀ frontier, (∀ key ∈ frontier, Good key) → ∀ key ∈ frontier,
      read frontier key = value key)
    (hgood : ∀ {key}, Good key → ∀ key' ∈ next (value key), Good key')
    (hrank : ∀ {key}, Good key → ∀ key' ∈ next (value key), rank key' < rank key) :
    ∀ {fuel : Nat} {frontier : List κ} {known : List (κ × ν)},
      (∀ key ∈ frontier, Good key ∧ rank key < fuel) → Explored next value known frontier →
        ∃ found, levels read next fuel frontier known = some found
          ∧ Explored next value found []
          ∧ (∀ key, mapHas known key = true ∨ key ∈ frontier → mapHas found key = true) := by
  intro fuel
  induction fuel with
  | zero =>
      intro frontier known hfrontier h
      cases frontier with
      | nil => exact ⟨known, rfl, h, fun key hkey => hkey.resolve_right List.not_mem_nil⟩
      | cons key rest => exact absurd (hfrontier key List.mem_cons_self).2 (Nat.not_lt_zero _)
  | succ fuel ih =>
      intro frontier known hfrontier h
      cases frontier with
      | nil => exact ⟨known, rfl, h, fun key hkey => hkey.resolve_right List.not_mem_nil⟩
      | cons key rest =>
          obtain ⟨hexplored, hhas, hnamed⟩ := explored_foldl (key :: rest) known []
            (hread _ fun k hk => (hfrontier k hk).1) (by rwa [List.append_nil])
          rw [← level] at hexplored hhas hnamed
          have hnext : Explored next value (level read next (key :: rest) known).1
              ((distinct (level read next (key :: rest) known).2).filter
                (!mapHas (level read next (key :: rest) known).1 ·)) := by
            refine ⟨hexplored.exact, fun {k} hk k' hk' => ?_⟩
            cases hin : mapHas (level read next (key :: rest) known).1 k' with
            | true => exact Or.inl rfl
            | false =>
                refine Or.inr (List.mem_filter.mpr ⟨mem_distinct.mpr ?_, by rw [hin]; rfl⟩)
                exact (hexplored.closed hk k' hk').resolve_left (by rw [hin]; exact Bool.false_ne_true)
          obtain ⟨found, hfound, hend, hkept⟩ := ih (fun k hk => by
            obtain ⟨from', hfrom, hin⟩ := (hnamed k (mem_distinct.mp (List.mem_filter.mp hk).1)).resolve_left
              List.not_mem_nil
            obtain ⟨hgoodFrom, hlt⟩ := hfrontier from' hfrom
            have := hrank hgoodFrom k hin
            exact ⟨hgood hgoodFrom k hin, by omega⟩) hnext
          refine ⟨found, hfound, hend, fun k hk => hkept k (Or.inl ?_)⟩
          rw [hhas, Bool.or_eq_true, decide_eq_true_eq]
          exact hk.symm

end Levels

end BreadthFirst
