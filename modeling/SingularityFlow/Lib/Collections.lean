/-
# Sets and maps of ECMAScript, as lists

`new Set(list)` is the list of first occurrences, `distinct`; its `size` is a
length.  A `Map` is an association list in which a later `set` stands before
an earlier one.  An object that is used as a map also answers for the names
it inherits from `Object.prototype`.
-/
import SingularityFlow.Lib.Text
import Mathlib.Data.Finset.Card
import Mathlib.Data.List.Sort

namespace Ecma

section Sets

variable {α : Type} [DecidableEq α]

/-- `[...new Set(list)]`. -/
def distinct : List α → List α
  | [] => []
  | a :: l => a :: (distinct l).filter (· ≠ a)

@[simp] theorem mem_distinct {a : α} {l : List α} : a ∈ distinct l ↔ a ∈ l := by
  induction l with
  | nil => rfl
  | cons b l ih =>
      rw [distinct, List.mem_cons, List.mem_filter, List.mem_cons, ih]
      by_cases h : a = b <;> simp [h]

theorem nodup_distinct (l : List α) : (distinct l).Nodup := by
  induction l with
  | nil => exact List.nodup_nil
  | cons a l ih =>
      rw [distinct, List.nodup_cons]
      exact ⟨by simp, ih.filter _⟩

theorem distinct_eq_self {l : List α} (h : l.Nodup) : distinct l = l := by
  induction l with
  | nil => rfl
  | cons a l ih =>
      rw [List.nodup_cons] at h
      rw [distinct, ih h.2, List.filter_eq_self.mpr]
      intro b hb
      simpa using fun he : b = a => h.1 (he ▸ hb)

/-- The size of a set depends on its elements only, monotonically. -/
theorem length_distinct_le {l l' : List α} (h : l ⊆ l') :
    (distinct l).length ≤ (distinct l').length := by
  rw [← List.toFinset_card_of_nodup (nodup_distinct l),
    ← List.toFinset_card_of_nodup (nodup_distinct l')]
  refine Finset.card_le_card fun a ha => ?_
  rw [List.mem_toFinset, mem_distinct] at ha ⊢
  exact h ha

/-- Looking for the first of some kind is the same in the list and in its set. -/
theorem find?_distinct (p : α → Bool) (l : List α) : (distinct l).find? p = l.find? p := by
  induction l with
  | nil => rfl
  | cons a l ih =>
      rw [distinct]
      by_cases h : p a = true
      · rw [List.find?_cons_of_pos h, List.find?_cons_of_pos h]
      · have hp : (fun b => decide (b ≠ a) && p b) = p := by
          funext b
          by_cases hb : b = a
          · subst hb; simp [h]
          · simp [hb]
        rw [List.find?_cons_of_neg h, List.find?_cons_of_neg h, List.find?_filter, ← ih]
        congr 1
        simpa using hp

end Sets

section Sorting

variable {α κ : Type} [LinearOrder κ] {r : α → α → Prop} [DecidableRel r] {f : α → κ}
  {l l' : List α}

/-- What is sorted by a rank has its ranks in order. -/
theorem pairwise_insertionSort_rank (hr : ∀ a b, r a b ↔ f a ≤ f b) (l : List α) :
    ((l.insertionSort r).map f).Pairwise (· ≤ ·) := by
  have htotal : Std.Total r := ⟨fun a b => by simpa only [hr] using le_total (f a) (f b)⟩
  have htrans : IsTrans α r := ⟨fun a b c => by simpa only [hr] using le_trans⟩
  refine List.pairwise_map.mpr ((List.pairwise_insertionSort r l).imp fun h => ?_)
  exact (hr _ _).mp h

/-- The ranks of a sorted list do not depend on the order that it had. -/
theorem map_insertionSort_perm (hr : ∀ a b, r a b ↔ f a ≤ f b) (h : l.Perm l') :
    (l.insertionSort r).map f = (l'.insertionSort r).map f :=
  List.Perm.eq_of_pairwise (fun _ _ _ _ => le_antisymm) (pairwise_insertionSort_rank hr l)
    (pairwise_insertionSort_rank hr l')
    (((List.perm_insertionSort r l).trans (h.trans (List.perm_insertionSort r l').symm)).map f)

/-- A list whose ranks increase is what its permutations are sorted to. -/
theorem insertionSort_eq_of_perm (hr : ∀ a b, r a b ↔ f a ≤ f b) (h : l.Perm l')
    (hl' : (l'.map f).Pairwise (· < ·)) : l.insertionSort r = l' := by
  have hperm := (List.perm_insertionSort r l).trans h
  have hsorted : l'.Pairwise fun a b => f a ≤ f b := (List.pairwise_map.mp hl').imp le_of_lt
  refine List.Perm.eq_of_pairwise (fun a b ha hb hab hba => ?_)
    (List.pairwise_map.mp (pairwise_insertionSort_rank hr l)) hsorted hperm
  exact List.inj_on_of_nodup_map (hl'.imp ne_of_lt) (hperm.mem_iff.mp ha) hb (le_antisymm hab hba)

end Sorting

section Maps

variable {κ ν : Type} [DecidableEq κ]

/-- `map.get(key)`. -/
def mapGet (map : List (κ × ν)) (key : κ) : Option ν := (map.find? (·.1 = key)).map Prod.snd

/-- `map.set(key, value)`. -/
def mapSet (map : List (κ × ν)) (key : κ) (value : ν) : List (κ × ν) := (key, value) :: map

@[simp] theorem mapGet_nil (key : κ) : mapGet ([] : List (κ × ν)) key = none := rfl

@[simp] theorem mapGet_mapSet_self (map : List (κ × ν)) (key : κ) (value : ν) :
    mapGet (mapSet map key value) key = some value := by
  simp [mapGet, mapSet]

theorem mapGet_mapSet_of_ne {map : List (κ × ν)} {key key' : κ} {value : ν} (h : key' ≠ key) :
    mapGet (mapSet map key value) key' = mapGet map key' := by
  simp [mapGet, mapSet, h.symm]

theorem mem_of_mapGet {map : List (κ × ν)} {key : κ} {value : ν} (h : mapGet map key = some value) :
    (key, value) ∈ map := by
  obtain ⟨entry, hfind, rfl⟩ := Option.map_eq_some_iff.mp h
  have hkey : entry.1 = key := by simpa using List.find?_some hfind
  exact hkey ▸ List.mem_of_find?_eq_some hfind

/-- A map answers for the keys that were set. -/
theorem exists_mapGet_iff {map : List (κ × ν)} {key : κ} :
    (∃ value, mapGet map key = some value) ↔ key ∈ map.map Prod.fst := by
  constructor
  · rintro ⟨value, h⟩
    exact List.mem_map_of_mem (mem_of_mapGet h)
  · intro h
    obtain ⟨entry, hmem, rfl⟩ := List.mem_map.mp h
    have hfind : (map.find? (·.1 = entry.1)).isSome = true :=
      List.find?_isSome.mpr ⟨entry, hmem, by simp⟩
    obtain ⟨found, hfound⟩ := Option.isSome_iff_exists.mp hfind
    exact ⟨found.2, by rw [mapGet, hfound, Option.map_some]⟩

/-- Where no key was set twice, a map holds what was set. -/
theorem mapGet_of_mem {map : List (κ × ν)} (hkeys : (map.map Prod.fst).Nodup) {key : κ}
    {value : ν} (h : (key, value) ∈ map) : mapGet map key = some value := by
  obtain ⟨found, hfound⟩ := exists_mapGet_iff.mpr (List.mem_map_of_mem (f := Prod.fst) h)
  have heq : ((key, found) : κ × ν) = (key, value) :=
    List.inj_on_of_nodup_map hkeys (mem_of_mapGet hfound) h rfl
  rw [hfound, (Prod.mk.inj heq).2]

end Maps

/-- The names that every plain object inherits. -/
def inheritedNames : List Text :=
  [js "constructor", js "__proto__", js "__defineGetter__", js "__defineSetter__",
    js "__lookupGetter__", js "__lookupSetter__", js "hasOwnProperty", js "isPrototypeOf",
    js "propertyIsEnumerable", js "toLocaleString", js "toString", js "valueOf"]

end Ecma
