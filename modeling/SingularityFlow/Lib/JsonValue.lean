/-
# JSON values, and when two of them are the same data

A value is what `JSON.parse` builds: the members of an object are kept in
the order of their creation, and their names are unique (`Proper`).  The
order an engine lists them in is `propertyOrder`, array indices first.

`SameData` is equality up to the order of members and the sign of zero.  It
is stated without choosing a representative; `canon`, which sorts the
members of every object and drops the sign, is a choice, and
`sameData_iff_canon` says it is a right one.
-/
import SingularityFlow.Lib.NumberText

namespace Ecma

/-- A JSON value. -/
inductive Value where
  | null
  | bool (b : Bool)
  | num (x : Number)
  | str (t : Text)
  | arr (items : List Value)
  | obj (members : List (Text × Value))

/-! ## Members by name -/

section Members

variable {α β : Type}

/-- The order of members that are sorted by name. -/
def LeName (p q : Text × α) : Prop := LeUnits p.1 q.1

instance : DecidableRel (LeName (α := α)) := fun p q => inferInstanceAs (Decidable (LeUnits p.1 q.1))
instance : Std.Total (LeName (α := α)) := ⟨fun p q => leUnits_total p.1 q.1⟩
instance : IsTrans (Text × α) LeName := ⟨fun _ _ _ => leUnits_trans⟩

/-- Members in the order of `Object.keys(value).sort()`. -/
def sortMembers (l : List (Text × α)) : List (Text × α) := l.insertionSort LeName

/-- The number that an array index spells. -/
def arrayIndex? (name : Text) : Option Nat :=
  if name.all isDigit && natText (digitsValue name) == name && digitsValue name < 4294967295 then
    some (digitsValue name)
  else none

/-- Members in the order an engine lists them: array indices in ascending
order, then the other names in the order of creation. -/
def propertyOrder (l : List (Text × α)) : List (Text × α) :=
  (l.filter fun p => (arrayIndex? p.1).isSome).insertionSort
      (fun p q => digitsValue p.1 ≤ digitsValue q.1)
    ++ l.filter fun p => !(arrayIndex? p.1).isSome

/-- Own property lookup. -/
def lookup (name : Text) (l : List (Text × α)) : Option α :=
  (l.find? fun p => p.1 = name).map Prod.snd

theorem sortMembers_perm (l : List (Text × α)) : (sortMembers l).Perm l :=
  List.perm_insertionSort _ l

theorem sortMembers_pairwise (l : List (Text × α)) : (sortMembers l).Pairwise LeName :=
  List.pairwise_insertionSort _ l

theorem propertyOrder_perm (l : List (Text × α)) : (propertyOrder l).Perm l :=
  ((List.perm_insertionSort _ _).append_right _).trans (List.filter_append_perm _ l)

/-- Members with one name are one member. -/
theorem eq_of_name_eq {l : List (Text × α)} (hl : (l.map Prod.fst).Nodup) {p q : Text × α}
    (hp : p ∈ l) (hq : q ∈ l) (h : p.1 = q.1) : p = q :=
  List.inj_on_of_nodup_map hl hp hq h

/-- Uniquely named members have one sorted order. -/
theorem eq_sortMembers {l l' : List (Text × α)} (hl : (l.map Prod.fst).Nodup) (h : l'.Perm l)
    (hl' : l'.Pairwise LeName) : l' = sortMembers l := by
  refine List.Perm.eq_of_pairwise ?_ hl' (sortMembers_pairwise l)
    (h.trans (sortMembers_perm l).symm)
  intro p q hp hq hpq hqp
  exact eq_of_name_eq hl (h.mem_iff.mp hp) ((sortMembers_perm l).mem_iff.mp hq)
    (leUnits_antisymm hpq hqp)

/-- Sorting does not see the order of uniquely named members. -/
theorem sortMembers_congr {l l' : List (Text × α)} (hl : (l.map Prod.fst).Nodup)
    (h : l.Perm l') : sortMembers l = sortMembers l' :=
  (eq_sortMembers hl ((sortMembers_perm l').trans h.symm) (sortMembers_pairwise l')).symm

theorem sortMembers_filter {l : List (Text × α)} (hl : (l.map Prod.fst).Nodup)
    (f : Text × α → Bool) : sortMembers (l.filter f) = (sortMembers l).filter f :=
  (eq_sortMembers (hl.sublist ((List.filter_sublist).map _)) ((sortMembers_perm l).filter f)
    ((sortMembers_pairwise l).filter f)).symm

theorem sortMembers_propertyOrder {l : List (Text × α)} (hl : (l.map Prod.fst).Nodup) :
    sortMembers (propertyOrder l) = sortMembers l :=
  (sortMembers_congr hl (propertyOrder_perm l).symm).symm

theorem sortMembers_sortMembers (l : List (Text × α)) :
    sortMembers (sortMembers l) = sortMembers l :=
  (sortMembers_pairwise l).insertionSort_eq

/-- Sorting moves whole members, whatever they hold. -/
theorem sortMembers_map (f : Text × α → β) (l : List (Text × α)) :
    sortMembers (l.map fun p => (p.1, f p)) = (sortMembers l).map fun p => (p.1, f p) :=
  (List.map_insertionSort LeName LeName (fun p => (p.1, f p)) l fun _ _ _ _ => Iff.rfl).symm

end Members

namespace Value

/-! ## Induction on values -/

/-- The values directly inside a value. -/
def children : Value → List Value
  | .arr items => items
  | .obj members => members.map Prod.snd
  | _ => []

/-- Induction: a property of all values inside a value passes to it. -/
@[induction_eliminator]
theorem ind {motive : Value → Prop} (null : motive .null) (bool : ∀ b, motive (.bool b))
    (num : ∀ x, motive (.num x)) (str : ∀ t, motive (.str t))
    (arr : ∀ items, (∀ v ∈ items, motive v) → motive (.arr items))
    (obj : ∀ members, (∀ p ∈ members, motive p.2) → motive (.obj members)) :
    ∀ v, motive v
  | .null => null
  | .bool b => bool b
  | .num x => num x
  | .str t => str t
  | .arr items => arr items fun v _ => ind null bool num str arr obj v
  | .obj members => obj members fun p _ => ind null bool num str arr obj p.2
termination_by v => sizeOf v
decreasing_by
  · have := List.sizeOf_lt_of_mem ‹v ∈ items›
    simp only [Value.arr.sizeOf_spec]
    omega
  · have h₁ := List.sizeOf_lt_of_mem ‹p ∈ members›
    have h₂ : sizeOf p.2 < sizeOf p := by cases p; simp
    simp only [Value.obj.sizeOf_spec]
    omega

/-- A property holds of a value and of every value in it. -/
inductive Everywhere (P : Value → Prop) : Value → Prop
  | intro {v : Value} : P v → (∀ c ∈ v.children, Everywhere P c) → Everywhere P v

section Everywhere

variable {P Q : Value → Prop}

theorem Everywhere.here {v : Value} (h : Everywhere P v) : P v := by cases h; assumption

theorem everywhere_arr {items : List Value} :
    Everywhere P (.arr items) ↔ P (.arr items) ∧ ∀ v ∈ items, Everywhere P v :=
  ⟨fun h => by cases h with | intro h₁ h₂ => exact ⟨h₁, h₂⟩, fun h => .intro h.1 h.2⟩

theorem everywhere_obj {members : List (Text × Value)} :
    Everywhere P (.obj members) ↔ P (.obj members) ∧ ∀ p ∈ members, Everywhere P p.2 := by
  constructor
  · rintro ⟨h₁, h₂⟩
    exact ⟨h₁, fun p hp => h₂ _ (List.mem_map_of_mem hp)⟩
  · rintro ⟨h₁, h₂⟩
    refine .intro h₁ fun c hc => ?_
    obtain ⟨p, hp, rfl⟩ := List.mem_map.mp hc
    exact h₂ p hp

theorem everywhere_leaf {v : Value} (hv : v.children = []) : Everywhere P v ↔ P v :=
  ⟨Everywhere.here, fun h => .intro h (by simp [hv])⟩

theorem everywhere_and {v : Value} :
    Everywhere (fun w => P w ∧ Q w) v ↔ Everywhere P v ∧ Everywhere Q v := by
  constructor
  · intro h
    induction h with
    | intro h _ ih => exact ⟨.intro h.1 fun c hc => (ih c hc).1, .intro h.2 fun c hc => (ih c hc).2⟩
  · rintro ⟨h₁, h₂⟩
    induction h₁ with
    | intro h _ ih =>
        cases h₂ with
        | intro h' hc' => exact .intro ⟨h, h'⟩ fun c hc => ih c hc (hc' c hc)

end Everywhere

mutual

/-- A test of a value and of every value in it. -/
def everywhere (p : Value → Bool) : Value → Bool
  | .arr items => p (.arr items) && everywhereItems p items
  | .obj members => p (.obj members) && everywhereMembers p members
  | v => p v

def everywhereItems (p : Value → Bool) : List Value → Bool
  | [] => true
  | v :: rest => everywhere p v && everywhereItems p rest

def everywhereMembers (p : Value → Bool) : List (Text × Value) → Bool
  | [] => true
  | (_, v) :: rest => everywhere p v && everywhereMembers p rest

end

theorem everywhere_iff {p : Value → Bool} {v : Value} :
    everywhere p v = true ↔ Everywhere (fun w => p w = true) v := by
  induction v with
  | arr items ih =>
      have hitems : ∀ l : List Value, (∀ v ∈ l, v ∈ items) →
          (everywhereItems p l = true ↔ ∀ v ∈ l, Everywhere (fun w => p w = true) v) := by
        intro l
        induction l with
        | nil => simp [everywhereItems]
        | cons v l ihl =>
            intro hl
            rw [everywhereItems, Bool.and_eq_true, ih v (hl v (by simp)),
              ihl fun w hw => hl w (List.mem_cons_of_mem _ hw), List.forall_mem_cons]
      rw [everywhere, Bool.and_eq_true, hitems items fun _ h => h, everywhere_arr]
  | obj members ih =>
      have hmembers : ∀ l : List (Text × Value), (∀ q ∈ l, q ∈ members) →
          (everywhereMembers p l = true ↔ ∀ q ∈ l, Everywhere (fun w => p w = true) q.2) := by
        intro l
        induction l with
        | nil => simp [everywhereMembers]
        | cons q l ihl =>
            intro hl
            rw [everywhereMembers, Bool.and_eq_true, ih q (hl q (by simp)),
              ihl fun w hw => hl w (List.mem_cons_of_mem _ hw), List.forall_mem_cons]
      rw [everywhere, Bool.and_eq_true, hmembers members fun _ h => h, everywhere_obj]
  | _ => rw [everywhere_leaf rfl]; rfl

instance (P : Value → Prop) [DecidablePred P] : DecidablePred (Everywhere P) := fun v =>
  decidable_of_iff (everywhere (fun w => decide (P w)) v = true)
    (everywhere_iff.trans (by simp only [decide_eq_true_eq]))

/-! ## Equality -/

mutual

/-- The comparison of two values, members in order. -/
def same : Value → Value → Bool
  | .null, .null => true
  | .bool a, .bool b => a = b
  | .num x, .num y => x = y
  | .str t, .str u => t = u
  | .arr items, .arr items' => sameItems items items'
  | .obj members, .obj members' => sameMembers members members'
  | _, _ => false

def sameItems : List Value → List Value → Bool
  | [], [] => true
  | v :: rest, w :: rest' => same v w && sameItems rest rest'
  | _, _ => false

def sameMembers : List (Text × Value) → List (Text × Value) → Bool
  | [], [] => true
  | (name, v) :: rest, (name', w) :: rest' => name = name' && same v w && sameMembers rest rest'
  | _, _ => false

end

theorem same_iff {v w : Value} : same v w = true ↔ v = w := by
  induction v generalizing w with
  | arr items ih =>
      have hitems : ∀ l l' : List Value, (∀ v ∈ l, v ∈ items) → (sameItems l l' = true ↔ l = l') := by
        intro l
        induction l with
        | nil => intro l' _; cases l' <;> simp [sameItems]
        | cons v l ihl =>
            intro l' hl
            cases l' with
            | nil => simp [sameItems]
            | cons w l' =>
                rw [sameItems, Bool.and_eq_true, ih v (hl v (by simp)),
                  ihl l' fun u hu => hl u (List.mem_cons_of_mem _ hu), List.cons.injEq]
      cases w <;> simp [same, hitems items _ fun _ h => h]
  | obj members ih =>
      have hmembers : ∀ l l' : List (Text × Value), (∀ q ∈ l, q ∈ members) →
          (sameMembers l l' = true ↔ l = l') := by
        intro l
        induction l with
        | nil => intro l' _; cases l' <;> simp [sameMembers]
        | cons q l ihl =>
            intro l' hl
            cases l' with
            | nil => simp [sameMembers]
            | cons r l' =>
                obtain ⟨name, v⟩ := q
                obtain ⟨name', v'⟩ := r
                rw [sameMembers, Bool.and_eq_true, Bool.and_eq_true, decide_eq_true_eq,
                  ih (name, v) (hl _ (by simp)), ihl l' fun u hu => hl u (List.mem_cons_of_mem _ hu),
                  List.cons.injEq, Prod.mk.injEq]
      cases w <;> simp [same, hmembers members _ fun _ h => h]
  | null => cases w <;> simp [same]
  | bool b => cases w <;> simp [same]
  | num x => cases w <;> simp [same]
  | str t => cases w <;> simp [same]

instance : DecidableEq Value := fun _ _ => decidable_of_iff _ same_iff

/-- The members of an object have distinct names. -/
def NamesUnique : Value → Prop
  | .obj members => (members.map Prod.fst).Nodup
  | _ => True

instance : DecidablePred NamesUnique
  | .obj members => inferInstanceAs (Decidable (members.map Prod.fst).Nodup)
  | .null | .bool _ | .num _ | .str _ | .arr _ => isTrue trivial

/-- A value as `JSON.parse` builds it. -/
def Proper (v : Value) : Prop := Everywhere NamesUnique v

instance : DecidablePred Proper := fun v => inferInstanceAs (Decidable (Everywhere NamesUnique v))

/-- A number is neither NaN nor infinite. -/
def NumberFinite : Value → Prop
  | .num x => x.isFinite = true
  | _ => True

instance : DecidablePred NumberFinite
  | .num x => inferInstanceAs (Decidable (x.isFinite = true))
  | .null | .bool _ | .str _ | .arr _ | .obj _ => isTrue trivial

/-- A string, and the names of an object, have no unpaired surrogate. -/
def SurrogatesPaired : Value → Prop
  | .str t => WellFormed t
  | .obj members => ∀ p ∈ members, WellFormed p.1
  | _ => True

/-- A number that its own text spells: finite, and not `-0`. -/
def NumberSpelled : Value → Prop
  | .num x => x.isFinite = true ∧ x.unsignedZero = x
  | _ => True

theorem nodup_names_append {l : List (Text × Value)} {name : Text} {v : Value}
    (hl : (l.map Prod.fst).Nodup) (hname : name ∉ l.map Prod.fst) :
    ((l ++ [(name, v)]).map Prod.fst).Nodup := by
  rw [List.map_append, List.nodup_append]
  refine ⟨hl, List.nodup_singleton _, fun a ha b hb h => hname ?_⟩
  obtain rfl : b = name := by simpa using hb
  exact h ▸ ha

/-- A member of a new name keeps an object proper. -/
theorem proper_append {l : List (Text × Value)} {name : Text} {v : Value}
    (hl : (Value.obj l).Proper) (hname : name ∉ l.map Prod.fst) (hv : v.Proper) :
    (Value.obj (l ++ [(name, v)])).Proper := by
  obtain ⟨hn, hp⟩ := everywhere_obj.mp hl
  refine everywhere_obj.mpr ⟨nodup_names_append hn hname, fun p hmem => ?_⟩
  rcases List.mem_append.mp hmem with hmem | hmem
  · exact hp p hmem
  · rw [List.mem_singleton.mp hmem]; exact hv

/-! ## The same data -/

/-- The same members in any order, with `-0` read as `0`. -/
inductive SameData : Value → Value → Prop
  | null : SameData .null .null
  | bool (b : Bool) : SameData (.bool b) (.bool b)
  | num {x y : Number} : x.unsignedZero = y.unsignedZero → SameData (.num x) (.num y)
  | str (t : Text) : SameData (.str t) (.str t)
  | arr {l l' : List Value} : l.length = l'.length →
      (∀ (i : Nat) (h : i < l.length) (h' : i < l'.length), SameData l[i] l'[i]) →
      SameData (.arr l) (.arr l')
  | obj {l m l' : List (Text × Value)} : m.Perm l' → l.map Prod.fst = m.map Prod.fst →
      (∀ (i : Nat) (h : i < l.length) (h' : i < m.length), SameData l[i].2 m[i].2) →
      SameData (.obj l) (.obj l')

mutual

/-- The value with the members of every object sorted by name and zeros
unsigned. -/
def canon : Value → Value
  | .null => .null
  | .bool b => .bool b
  | .num x => .num x.unsignedZero
  | .str t => .str t
  | .arr items => .arr (canonItems items)
  | .obj members => .obj (sortMembers (canonMembers members))

def canonItems : List Value → List Value
  | [] => []
  | v :: rest => v.canon :: canonItems rest

def canonMembers : List (Text × Value) → List (Text × Value)
  | [] => []
  | (name, v) :: rest => (name, v.canon) :: canonMembers rest

end

theorem canonItems_eq (l : List Value) : canonItems l = l.map canon := by
  induction l with
  | nil => rfl
  | cons v rest ih => rw [canonItems, ih, List.map_cons]

theorem canonMembers_eq (l : List (Text × Value)) :
    canonMembers l = l.map fun p => (p.1, p.2.canon) := by
  induction l with
  | nil => rfl
  | cons p rest ih => rw [canonMembers, ih, List.map_cons]

theorem canonMembers_names (l : List (Text × Value)) :
    (canonMembers l).map Prod.fst = l.map Prod.fst := by
  rw [canonMembers_eq, List.map_map]; rfl

theorem mem_sortMembers_canonMembers {l : List (Text × Value)} {p : Text × Value}
    (h : p ∈ sortMembers (canonMembers l)) : ∃ q ∈ l, p = (q.1, q.2.canon) := by
  rw [(sortMembers_perm _).mem_iff, canonMembers_eq] at h
  obtain ⟨q, hq, rfl⟩ := List.mem_map.mp h
  exact ⟨q, hq, rfl⟩

theorem canon_proper {v : Value} (h : v.Proper) : v.canon.Proper := by
  induction v with
  | arr l ih =>
      rw [canon, canonItems_eq]
      refine everywhere_arr.mpr ⟨trivial, fun w hw => ?_⟩
      obtain ⟨u, hu, rfl⟩ := List.mem_map.mp hw
      exact ih u hu ((everywhere_arr.mp h).2 u hu)
  | obj l ih =>
      obtain ⟨hn, hp⟩ := everywhere_obj.mp h
      rw [canon]
      refine everywhere_obj.mpr ⟨?_, fun p hmem => ?_⟩
      · have hperm := (sortMembers_perm (canonMembers l)).map Prod.fst
        rw [NamesUnique, hperm.nodup_iff, canonMembers_names]
        exact hn
      · obtain ⟨q, hq, rfl⟩ := mem_sortMembers_canonMembers hmem
        exact ih q hq (hp q hq)
  | _ => exact (everywhere_leaf rfl).mpr trivial

theorem canon_spelled {v : Value} (h : Everywhere NumberFinite v) :
    Everywhere NumberSpelled v.canon := by
  induction v with
  | num x =>
      have hx : x.isFinite = true := h.here
      exact (everywhere_leaf rfl).mpr ⟨by simpa using hx, by simp⟩
  | arr l ih =>
      rw [canon, canonItems_eq]
      refine everywhere_arr.mpr ⟨trivial, fun w hw => ?_⟩
      obtain ⟨u, hu, rfl⟩ := List.mem_map.mp hw
      exact ih u hu ((everywhere_arr.mp h).2 u hu)
  | obj l ih =>
      rw [canon]
      refine everywhere_obj.mpr ⟨trivial, fun p hmem => ?_⟩
      obtain ⟨q, hq, rfl⟩ := mem_sortMembers_canonMembers hmem
      exact ih q hq ((everywhere_obj.mp h).2 q hq)
  | _ => exact (everywhere_leaf rfl).mpr trivial

/-- The canonical form is one of the forms of the same data. -/
theorem canon_canon {v : Value} (h : v.Proper) : v.canon.canon = v.canon := by
  induction v with
  | num x => simp [canon]
  | arr l ih =>
      rw [canon, canon, canonItems_eq, canonItems_eq, List.map_map]
      congr 1
      exact List.map_congr_left fun u hu => ih u hu ((everywhere_arr.mp h).2 u hu)
  | obj l ih =>
      have hp := (everywhere_obj.mp h).2
      rw [canon, canon, canonMembers_eq, canonMembers_eq, sortMembers_map, sortMembers_sortMembers,
        sortMembers_map, List.map_map]
      congr 1
      refine List.map_congr_left fun q hq => ?_
      have hq' := (sortMembers_perm l).mem_iff.mp hq
      simp only [Function.comp_apply, ih q hq' (hp q hq')]
  | _ => rfl

/-- The same data have the same canonical form. -/
theorem SameData.canon_eq {v w : Value} (h : SameData v w) (hw : w.Proper) :
    v.canon = w.canon := by
  induction h with
  | null => rfl
  | bool b => rfl
  | num h => rw [canon, canon, h]
  | str t => rfl
  | @arr l l' hlen _ ih =>
      have hw' := (everywhere_arr.mp hw).2
      rw [canon, canon, canonItems_eq, canonItems_eq]
      congr 1
      refine List.ext_getElem (by simpa using hlen) fun i h₁ h₂ => ?_
      simp only [List.getElem_map]
      exact ih i _ _ (hw' _ (List.getElem_mem _))
  | @obj l m l' hperm hnames _ ih =>
      obtain ⟨hn, hw'⟩ := everywhere_obj.mp hw
      have hm : (m.map Prod.fst).Nodup := (hperm.map Prod.fst).nodup_iff.mpr hn
      have hlm : canonMembers l = canonMembers m := by
        rw [canonMembers_eq, canonMembers_eq]
        have hlen : l.length = m.length := by simpa using congrArg List.length hnames
        refine List.ext_getElem (by simpa using hlen) fun i h₁ h₂ => ?_
        simp only [List.length_map] at h₁ h₂
        have hname : l[i].1 = m[i].1 := by
          have := List.getElem_of_eq hnames (i := i) (by simpa using h₁)
          simpa using this
        have hmem : m[i] ∈ l' := hperm.mem_iff.mp (List.getElem_mem _)
        simp only [List.getElem_map, hname, ih i h₁ h₂ (hw' _ hmem)]
      have hmperm : (canonMembers m).Perm (canonMembers l') := by
        rw [canonMembers_eq, canonMembers_eq]
        exact hperm.map _
      rw [canon, canon, hlm, sortMembers_congr (by rwa [canonMembers_names]) hmperm]

/-- Values with one canonical form are the same data. -/
theorem sameData_of_canon_eq {v w : Value} (h : v.canon = w.canon) : SameData v w := by
  induction v generalizing w with
  | null => cases w <;> simp [canon] at h; exact .null
  | bool b => cases w <;> simp [canon] at h; subst h; exact .bool b
  | num x => cases w <;> simp [canon] at h; exact .num h
  | str t => cases w <;> simp [canon] at h; subst h; exact .str t
  | arr l ih =>
      cases w <;> simp [canon] at h
      rename_i l'
      rw [canonItems_eq, canonItems_eq] at h
      have hlen : l.length = l'.length := by simpa using congrArg List.length h
      refine .arr hlen fun i h₁ h₂ => ih _ (List.getElem_mem _) ?_
      have := List.getElem_of_eq h (i := i) (by simpa using h₁)
      simpa using this
  | obj l ih =>
      cases w <;> simp [canon] at h
      rename_i l'
      rw [canonMembers_eq, canonMembers_eq] at h
      set f := fun p : Text × Value => (p.1, p.2.canon) with hf
      have hperm : (l'.map f).Perm (l.map f) := by
        have := (sortMembers_perm (l'.map f))
        rw [← h] at this
        exact this.symm.trans (sortMembers_perm (l.map f))
      -- reorder the members of the second object to meet those of the first
      have hcomp : Relation.Comp (List.Forall₂ fun p q => f p = q) List.Perm l' (l.map f) :=
        ⟨l'.map f, by simp [List.forall₂_map_right_iff, List.forall₂_same], hperm⟩
      rw [List.forall₂_comp_perm_eq_perm_comp_forall₂] at hcomp
      obtain ⟨m, hm, hml⟩ := hcomp
      have hmap : m.map f = l.map f := by
        have := List.forall₂_map_left_iff (R := Eq) (f := f) |>.mpr hml
        exact List.forall₂_eq_eq_eq ▸ this
      have hnames : l.map Prod.fst = m.map Prod.fst := by
        have := congrArg (List.map Prod.fst) hmap
        simpa [List.map_map, hf, Function.comp_def] using this.symm
      refine .obj hm.symm hnames fun i h₁ h₂ => ih _ (List.getElem_mem _) ?_
      have := List.getElem_of_eq hmap (i := i) (by simpa using h₂)
      simp only [List.getElem_map, hf, Prod.mk.injEq] at this
      exact this.2.symm

/-- **The canonical form decides whether two values are the same data.** -/
theorem sameData_iff_canon {v w : Value} (hw : w.Proper) :
    SameData v w ↔ v.canon = w.canon :=
  ⟨fun h => h.canon_eq hw, sameData_of_canon_eq⟩

theorem SameData.refl (v : Value) : SameData v v := sameData_of_canon_eq rfl

end Value

end Ecma
