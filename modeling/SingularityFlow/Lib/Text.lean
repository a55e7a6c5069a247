/-
# Strings of 16-bit code units

An ECMAScript string is a finite sequence of 16-bit code units.  Nothing
says that the surrogates in it are paired, so the type here is the plain
list of units; being well formed is a property (`WellFormed`), not part
of the type.

What is developed: literals, the code-unit order that `Array.sort` uses
when it is given no comparator, and the passage between code units and
Unicode scalar values.  The passage is lossy in
one direction only: `scalars` reads an unpaired surrogate as U+FFFD, and
is inverted by `ofScalars` exactly on the well-formed strings.
-/
import Mathlib.Data.List.Sort
import Mathlib.Data.List.SplitOn
import Mathlib.Tactic

namespace Ecma

/-- A string, as its code units. -/
abbrev Text := List UInt16

instance instLawfulBEqText : LawfulBEq Text := inferInstance

/-! ## Scalar values and code units -/

/-- The code units of one scalar value. -/
def unitsOfScalar (c : Char) : Text :=
  if c.toNat < 0x10000 then [c.toNat.toUInt16]
  else
    [(0xD800 + (c.toNat - 0x10000) / 0x400).toUInt16,
     (0xDC00 + (c.toNat - 0x10000) % 0x400).toUInt16]

/-- The code units of a sequence of scalar values. -/
def ofScalars (cs : List Char) : Text := cs.flatMap unitsOfScalar

/-- A string literal. -/
def js (s : String) : Text := ofScalars s.toList

/-- A lower case hexadecimal digit. -/
def hexUnit (d : Nat) : UInt16 := if d < 10 then (0x30 + d).toUInt16 else (0x57 + d).toUInt16

def isHighSurrogate (u : UInt16) : Bool := 0xD800 ≤ u.toNat && u.toNat ≤ 0xDBFF

def isLowSurrogate (u : UInt16) : Bool := 0xDC00 ≤ u.toNat && u.toNat ≤ 0xDFFF

/-- The scalar value of a surrogate pair. -/
def pairScalar (hi lo : UInt16) : Char :=
  Char.ofNat (0x10000 + (hi.toNat - 0xD800) * 0x400 + (lo.toNat - 0xDC00))

/-- The code points of a string, an unpaired surrogate read as U+FFFD. -/
def scalars : Text → List Char
  | [] => []
  | [u] =>
      [if isHighSurrogate u || isLowSurrogate u then '\uFFFD' else Char.ofNat u.toNat]
  | u :: v :: rest =>
      if isHighSurrogate u then
        if isLowSurrogate v then pairScalar u v :: scalars rest
        else '\uFFFD' :: scalars (v :: rest)
      else if isLowSurrogate u then '\uFFFD' :: scalars (v :: rest)
      else Char.ofNat u.toNat :: scalars (v :: rest)

/-- No unpaired surrogate. -/
def wellFormed : Text → Bool
  | [] => true
  | [u] => !isHighSurrogate u && !isLowSurrogate u
  | u :: v :: rest =>
      if isHighSurrogate u then isLowSurrogate v && wellFormed rest
      else !isLowSurrogate u && wellFormed (v :: rest)

/-- A string whose surrogates are all paired. -/
def WellFormed (t : Text) : Prop := wellFormed t = true

instance (t : Text) : Decidable (WellFormed t) := inferInstanceAs (Decidable (_ = _))

@[simp] theorem ofScalars_nil : ofScalars [] = [] := rfl

@[simp] theorem ofScalars_cons (c : Char) (cs : List Char) :
    ofScalars (c :: cs) = unitsOfScalar c ++ ofScalars cs := by
  simp [ofScalars]

/-- A scalar value is below the surrogates or above them. -/
theorem toNat_scalar (c : Char) :
    c.toNat < 0xD800 ∨ (0xDFFF < c.toNat ∧ c.toNat < 0x110000) :=
  c.valid

theorem toNat_toUInt16 {n : Nat} (h : n < 0x10000) : n.toUInt16.toNat = n := by
  simp only [Nat.toUInt16_eq, UInt16.toNat_ofNat']
  omega

theorem ofNat_toNat_eq {c : Char} {n : Nat} (h : n = c.toNat) : Char.ofNat n = c := by
  subst h; exact Char.ofNat_toNat c

theorem toNat_ofNat {n : Nat} (h : n < 0xD800 ∨ (0xDFFF < n ∧ n < 0x110000)) :
    (Char.ofNat n).toNat = n := by
  rw [Char.ofNat, dif_pos (show n.isValidChar from h)]
  rfl

/-- A scalar in the basic plane is one unit, and that unit is no surrogate. -/
theorem unitsOfScalar_basic {c : Char} (h : c.toNat < 0x10000) :
    ∃ u, unitsOfScalar c = [u] ∧ isHighSurrogate u = false ∧
      isLowSurrogate u = false ∧ Char.ofNat u.toNat = c := by
  have hu : c.toNat.toUInt16.toNat = c.toNat := toNat_toUInt16 h
  refine ⟨c.toNat.toUInt16, by simp [unitsOfScalar, h], ?_, ?_, ?_⟩
  · have := toNat_scalar c
    simp only [isHighSurrogate, hu, Bool.and_eq_false_iff, decide_eq_false_iff_not]
    omega
  · have := toNat_scalar c
    simp only [isLowSurrogate, hu, Bool.and_eq_false_iff, decide_eq_false_iff_not]
    omega
  · rw [hu]; exact Char.ofNat_toNat c

/-- A supplementary scalar is a high surrogate followed by a low one. -/
theorem unitsOfScalar_pair {c : Char} (h : ¬ c.toNat < 0x10000) :
    ∃ hi lo, unitsOfScalar c = [hi, lo] ∧ isHighSurrogate hi = true ∧
      isLowSurrogate lo = true ∧ pairScalar hi lo = c := by
  have hc := toNat_scalar c
  have hhi : (0xD800 + (c.toNat - 0x10000) / 0x400).toUInt16.toNat =
      0xD800 + (c.toNat - 0x10000) / 0x400 := toNat_toUInt16 (by omega)
  have hlo : (0xDC00 + (c.toNat - 0x10000) % 0x400).toUInt16.toNat =
      0xDC00 + (c.toNat - 0x10000) % 0x400 := toNat_toUInt16 (by omega)
  refine ⟨_, _, by simp only [unitsOfScalar, if_neg h]; rfl, ?_, ?_, ?_⟩
  · simp only [isHighSurrogate, hhi, Bool.and_eq_true, decide_eq_true_eq]; omega
  · simp only [isLowSurrogate, hlo, Bool.and_eq_true, decide_eq_true_eq]; omega
  · refine ofNat_toNat_eq ?_
    rw [hhi, hlo]
    omega

/-- Reading the units of one scalar in front of a string. -/
theorem scalars_unitsOfScalar_append (c : Char) (t : Text) :
    scalars (unitsOfScalar c ++ t) = c :: scalars t := by
  by_cases h : c.toNat < 0x10000
  · obtain ⟨u, hu, hhi, hlo, hc⟩ := unitsOfScalar_basic h
    rw [hu]
    cases t with
    | nil => simp [scalars, hhi, hlo, hc]
    | cons v rest => simp [scalars, hhi, hlo, hc]
  · obtain ⟨hi, lo, hu, hhi, hlo, hc⟩ := unitsOfScalar_pair h
    rw [hu]
    simp [scalars, hhi, hlo, hc]

/-- Every sequence of scalars is read back from its code units. -/
@[simp] theorem scalars_ofScalars (cs : List Char) : scalars (ofScalars cs) = cs := by
  induction cs with
  | nil => rfl
  | cons c cs ih => rw [ofScalars_cons, scalars_unitsOfScalar_append, ih]

theorem wellFormed_unitsOfScalar_append (c : Char) (t : Text) :
    wellFormed (unitsOfScalar c ++ t) = wellFormed t := by
  by_cases h : c.toNat < 0x10000
  · obtain ⟨u, hu, hhi, hlo, -⟩ := unitsOfScalar_basic h
    rw [hu]
    cases t with
    | nil => simp [wellFormed, hhi, hlo]
    | cons v rest => simp [wellFormed, hhi, hlo]
  · obtain ⟨hi, lo, hu, hhi, hlo, -⟩ := unitsOfScalar_pair h
    rw [hu]
    simp [wellFormed, hhi, hlo]

/-- The code units of scalar values are well formed. -/
theorem wellFormed_ofScalars (cs : List Char) : WellFormed (ofScalars cs) := by
  induction cs with
  | nil => rfl
  | cons c cs ih =>
      rw [WellFormed, ofScalars_cons, wellFormed_unitsOfScalar_append]
      exact ih

theorem unitsOfScalar_ofNat {u : UInt16} (hhi : isHighSurrogate u = false)
    (hlo : isLowSurrogate u = false) : unitsOfScalar (Char.ofNat u.toNat) = [u] := by
  have hu : u.toNat < 0x10000 := u.toNat_lt
  simp only [isHighSurrogate, isLowSurrogate, Bool.and_eq_false_iff,
    decide_eq_false_iff_not] at hhi hlo
  have hn : (Char.ofNat u.toNat).toNat = u.toNat := toNat_ofNat (by omega)
  simp [unitsOfScalar, hn, hu]

theorem unitsOfScalar_pairScalar {hi lo : UInt16} (hhi : isHighSurrogate hi = true)
    (hlo : isLowSurrogate lo = true) : unitsOfScalar (pairScalar hi lo) = [hi, lo] := by
  simp only [isHighSurrogate, isLowSurrogate, Bool.and_eq_true, decide_eq_true_eq] at hhi hlo
  have hn : (pairScalar hi lo).toNat =
      0x10000 + (hi.toNat - 0xD800) * 0x400 + (lo.toNat - 0xDC00) := toNat_ofNat (by omega)
  have h1 : (0xD800 + ((pairScalar hi lo).toNat - 0x10000) / 0x400) = hi.toNat := by omega
  have h2 : (0xDC00 + ((pairScalar hi lo).toNat - 0x10000) % 0x400) = lo.toNat := by omega
  have h3 : ¬ (pairScalar hi lo).toNat < 0x10000 := by omega
  simp [unitsOfScalar, h1, h2, h3]

/-- On a well-formed string nothing is lost by reading its scalars. -/
theorem ofScalars_scalars : ∀ {t : Text}, WellFormed t → ofScalars (scalars t) = t
  | [], _ => rfl
  | [u], h => by
      simp only [WellFormed, wellFormed, Bool.and_eq_true, Bool.not_eq_true'] at h
      simp [scalars, h.1, h.2, unitsOfScalar_ofNat h.1 h.2]
  | u :: v :: rest, h => by
      by_cases hu : isHighSurrogate u = true
      · simp only [WellFormed, wellFormed, hu, if_true, Bool.and_eq_true] at h
        simp [scalars, hu, h.1, unitsOfScalar_pairScalar hu h.1, ofScalars_scalars h.2]
      · simp only [WellFormed, wellFormed, hu, Bool.and_eq_true,
          Bool.not_eq_true', if_false, Bool.false_eq_true] at h
        have hu' : isHighSurrogate u = false := by simpa using hu
        simp [scalars, hu', h.1, unitsOfScalar_ofNat hu' h.1, ofScalars_scalars h.2]

theorem wellFormed_ofScalars_append (cs : List Char) (t : Text) :
    wellFormed (ofScalars cs ++ t) = wellFormed t := by
  induction cs with
  | nil => rfl
  | cons c cs ih =>
      rw [ofScalars_cons, List.append_assoc, wellFormed_unitsOfScalar_append, ih]

/-- Nothing behind a well-formed string can be taken for its last surrogate. -/
theorem WellFormed.append_iff {a b : Text} (h : WellFormed a) :
    WellFormed (a ++ b) ↔ WellFormed b := by
  rw [← ofScalars_scalars h, WellFormed, wellFormed_ofScalars_append]
  rfl

theorem WellFormed.append {a b : Text} (ha : WellFormed a) (hb : WellFormed b) :
    WellFormed (a ++ b) :=
  ha.append_iff.mpr hb

/-- The units of the ASCII range are scalars. -/
theorem wellFormed_of_ascii {t : Text} (h : ∀ u ∈ t, u.toNat < 0x80) : WellFormed t := by
  have hu : ∀ u : UInt16, u.toNat < 0x80 → isHighSurrogate u = false ∧ isLowSurrogate u = false := by
    intro u hu
    simp only [isHighSurrogate, isLowSurrogate, Bool.and_eq_false_iff, decide_eq_false_iff_not]
    omega
  induction t with
  | nil => rfl
  | cons u t ih =>
      obtain ⟨hhi, hlo⟩ := hu u (h u (List.mem_cons_self ..))
      have ih := ih fun v hv => h v (List.mem_cons_of_mem _ hv)
      cases t with
      | nil => simp [WellFormed, wellFormed, hhi, hlo]
      | cons v t => simpa [WellFormed, wellFormed, hhi, hlo] using ih

/-! ## The code-unit order -/

/-- `a ≤ b` in the order of code units, a prefix first. -/
def leUnits : Text → Text → Bool
  | [], _ => true
  | _ :: _, [] => false
  | a :: as, b :: bs => a < b || (a == b && leUnits as bs)

/-- The order `Array.prototype.sort` uses on strings. -/
def LeUnits (a b : Text) : Prop := leUnits a b = true

instance : DecidableRel LeUnits := fun _ _ => inferInstanceAs (Decidable (_ = _))

theorem leUnits_total : ∀ a b : Text, LeUnits a b ∨ LeUnits b a
  | [], _ => Or.inl rfl
  | _ :: _, [] => Or.inr rfl
  | a :: as, b :: bs => by
      have ih := leUnits_total as bs
      simp only [LeUnits, leUnits, Bool.or_eq_true, decide_eq_true_eq, Bool.and_eq_true,
        beq_iff_eq] at ih ⊢
      grind

theorem leUnits_trans : ∀ {a b c : Text}, LeUnits a b → LeUnits b c → LeUnits a c
  | [], _, _, _, _ => rfl
  | _ :: _, [], _, h, _ => absurd h (by simp [LeUnits, leUnits])
  | _ :: _, _ :: _, [], _, h => absurd h (by simp [LeUnits, leUnits])
  | a :: as, b :: bs, c :: cs, h₁, h₂ => by
      have ih : LeUnits as bs → LeUnits bs cs → LeUnits as cs := leUnits_trans
      simp only [LeUnits, leUnits, Bool.or_eq_true, decide_eq_true_eq, Bool.and_eq_true,
        beq_iff_eq] at ih h₁ h₂ ⊢
      grind

theorem leUnits_antisymm : ∀ {a b : Text}, LeUnits a b → LeUnits b a → a = b
  | [], [], _, _ => rfl
  | [], _ :: _, _, h => absurd h (by simp [LeUnits, leUnits])
  | _ :: _, [], h, _ => absurd h (by simp [LeUnits, leUnits])
  | a :: as, b :: bs, h₁, h₂ => by
      have ih : LeUnits as bs → LeUnits bs as → as = bs := leUnits_antisymm
      simp only [LeUnits, leUnits, Bool.or_eq_true, decide_eq_true_eq, Bool.and_eq_true,
        beq_iff_eq] at ih h₁ h₂ ⊢
      grind

instance : Std.Total LeUnits := ⟨leUnits_total⟩
instance : IsTrans Text LeUnits := ⟨fun _ _ _ => leUnits_trans⟩

/-! ## Operations on strings -/

/-- What `String.prototype.trim` removes. -/
def isTrimmed (u : UInt16) : Bool :=
  (0x09 ≤ u.toNat && u.toNat ≤ 0x0D) || u ∈ ([0x20, 0xA0, 0x1680, 0x2028, 0x2029, 0x202F, 0x205F,
    0x3000, 0xFEFF] : List UInt16) || (0x2000 ≤ u.toNat && u.toNat ≤ 0x200A)

/-- `String.prototype.trim`. -/
def trim (t : Text) : Text := ((t.dropWhile isTrimmed).reverse.dropWhile isTrimmed).reverse

theorem trim_cons {u : UInt16} (hu : isTrimmed u = false) (t : Text) :
    ∃ t', trim (u :: t) = u :: t' := by
  have hfront : (u :: t).dropWhile isTrimmed = u :: t := List.dropWhile_cons_of_neg (by simp [hu])
  have hend : [u].dropWhile isTrimmed = [u] := List.dropWhile_cons_of_neg (by simp [hu])
  rw [trim, hfront, List.reverse_cons, List.dropWhile_append, hend]
  split
  · exact ⟨[], rfl⟩
  · exact ⟨_, List.reverse_append⟩

theorem dropWhile_dropWhile {α : Type} (p : α → Bool) (l : List α) :
    (l.dropWhile p).dropWhile p = l.dropWhile p := by
  cases h : l.dropWhile p with
  | nil => rfl
  | cons a rest =>
      have ha : p a = false := by
        have hhead := List.head_dropWhile_not p (l := l) (by rw [h]; exact List.cons_ne_nil _ _)
        simpa only [h, List.head_cons] using hhead
      exact List.dropWhile_cons_of_neg (by rw [ha]; exact Bool.false_ne_true)

/-- A text that no blank begins or ends is trimmed as it stands. -/
theorem trim_of_ends {t : Text} (hfirst : ∀ u ∈ t.head?, isTrimmed u = false)
    (hlast : ∀ u ∈ t.getLast?, isTrimmed u = false) : trim t = t := by
  have hfront : ∀ l : Text, (∀ u ∈ l.head?, isTrimmed u = false) → l.dropWhile isTrimmed = l := by
    intro l hl
    cases l with
    | nil => rfl
    | cons u l => exact List.dropWhile_cons_of_neg (by rw [hl u rfl]; exact Bool.false_ne_true)
  rw [trim, hfront t hfirst, hfront _ fun u hu => hlast u (List.head?_reverse ▸ hu),
    List.reverse_reverse]

theorem trim_of_forall {t : Text} (h : ∀ u ∈ t, isTrimmed u = false) : trim t = t :=
  trim_of_ends (fun u hu => h u (List.mem_of_head? hu)) fun u hu => h u (List.mem_of_getLast? hu)

/-- A printable character other than the space is not trimmed. -/
theorem isTrimmed_of_printable {u : UInt16} (hlow : 0x20 < u.toNat) (hhigh : u.toNat < 0x7F) :
    isTrimmed u = false := by
  have hne : ∀ v : UInt16, v.toNat ≤ 0x20 ∨ 0x7F ≤ v.toNat → u ≠ v := by
    rintro v hv rfl
    omega
  have hlist : u ∉ ([0x20, 0xA0, 0x1680, 0x2028, 0x2029, 0x202F, 0x205F, 0x3000, 0xFEFF]
      : List UInt16) := by
    simp only [List.mem_cons, List.not_mem_nil, or_false, not_or]
    refine ⟨?_, ?_, ?_, ?_, ?_, ?_, ?_, ?_, ?_⟩
    all_goals exact hne _ (by decide)
  simp only [isTrimmed, hlist, decide_false, Bool.or_false, Bool.or_eq_false_iff,
    Bool.and_eq_false_iff, decide_eq_false_iff_not]
  omega

/-- A text has no blanks left to trim. -/
theorem trim_trim (t : Text) : trim (trim t) = trim t := by
  unfold trim
  cases hu : t.dropWhile isTrimmed with
  | nil => rfl
  | cons a rest =>
      have ha : isTrimmed a = false := by
        have hhead := List.head_dropWhile_not isTrimmed (l := t) (by rw [hu]; exact List.cons_ne_nil _ _)
        simpa only [hu, List.head_cons] using hhead
      -- the first unit is not a blank, so that it also ends the other trimming
      obtain ⟨rest', hrest⟩ := trim_cons ha rest
      have hfront : ((a :: rest).reverse.dropWhile isTrimmed).reverse = a :: rest' := by
        have := hrest
        unfold trim at this
        rwa [List.dropWhile_cons_of_neg (by rw [ha]; exact Bool.false_ne_true)] at this
      rw [hfront, List.dropWhile_cons_of_neg (by rw [ha]; exact Bool.false_ne_true), ← hfront,
        List.reverse_reverse, dropWhile_dropWhile]

/-- `String.prototype.trimEnd`. -/
def trimEnd (t : Text) : Text := (t.reverse.dropWhile isTrimmed).reverse

/-- The text without one unit at its end. -/
def chomp (u : UInt16) (t : Text) : Text := if [u].isSuffixOf t then t.dropLast else t

/-- `split(/\r?\n/)`. -/
def splitLines (t : Text) : List Text :=
  let pieces := t.splitOn 0x0A
  pieces.dropLast.map (chomp 0x0D) ++ pieces.getLast?.toList

/-- The operations on strings that depend on the Unicode tables. -/
structure UnicodeTables where
  /-- `String.prototype.normalize('NFC')`. -/
  normalize : Text → Text
  /-- `String.prototype.toLowerCase`. -/
  toLowerCase : Text → Text
  /-- `String.prototype.toLocaleLowerCase('en-US')`. -/
  toLocaleLowerCase : Text → Text

/-- An ASCII letter in lower case, and any other unit as it is. -/
def lowerAscii (u : UInt16) : UInt16 :=
  if 0x41 ≤ u.toNat ∧ u.toNat ≤ 0x5A then u + 0x20 else u

/-- Tables that agree with Unicode on ASCII letters, and leave other units alone. -/
def asciiTables : UnicodeTables := ⟨id, List.map lowerAscii, List.map lowerAscii⟩

/-- A unit that `[a-z0-9]` matches. -/
def isLowerAlnum (u : UInt16) : Bool :=
  (0x61 ≤ u.toNat && u.toNat ≤ 0x7A) || (0x30 ≤ u.toNat && u.toNat ≤ 0x39)

/-- `/^[a-z0-9]+(?:-[a-z0-9]+)*$/`. -/
def kebabCase (t : Text) : Bool :=
  (t.splitOn 0x2D).all fun part => part ≠ [] && part.all isLowerAlnum

end Ecma
