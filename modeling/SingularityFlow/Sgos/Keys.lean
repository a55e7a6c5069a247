/-
# Resource keys that are normalized twice

A declared key is normalized once when the entries of a task are made
canonical, and once more whenever two entries are compared.  Each pass removes
at most one glob and one slash from the end, and blanks only before that.  So
the second pass can find more to remove.

It does exactly for the spellings of which the first leaves such an end
(`LeavesEnd`).  Where two declarations have no such key, the conflict of their
canonical entries is that of the declarations themselves, and an overlap is a
matter of path segments (`spellingIndependent_iff`).
-/
import SingularityFlow.Sgos.Resources

namespace SingularityFlow

open Ecma

namespace Sgos

/-! ## The normal form -/

def slash (u : UInt16) : UInt16 := if u = 0x5C then 0x2F else u

/-- What Unicode promises of the normal form NFC.  A backslash and a slash are
part of no composition. -/
structure NormalForm (normalize : Text → Text) : Prop where
  idempotent : ∀ t, normalize (normalize t) = normalize t
  substring : ∀ {s t}, normalize t = t → s <:+: t → normalize s = s
  trimmed : ∀ {t}, trim t = t → trim (normalize t) = normalize t
  slashes : ∀ t, normalize (t.map slash) = (normalize t).map slash

theorem normalForm_ascii : NormalForm asciiTables.normalize where
  idempotent _ := rfl
  substring _ _ := rfl
  trimmed h := h
  slashes _ := rfl

/-! ## One pass -/

variable {tables : UnicodeTables}

/-- The text before anything is removed from its end. -/
def slashed (tables : UnicodeTables) (value : Text) : Text :=
  (tables.normalize (trim value)).map slash

/-- `text.replace(/\/(?:\*\*|\*)$/, '')`. -/
def dropGlob (text : Text) : Text :=
  if js "/**" <:+ text then dropSuffix (js "/**") text else dropSuffix (js "/*") text

def stripped (text : Text) : Text := dropSuffix (js "/") (dropGlob text)

/-- What is asked of a key. -/
structure Acceptable (key : Text) : Prop where
  nonempty : key ≠ []
  printable : ∀ u ∈ key, ¬ (u.toNat ≤ 0x1F ∨ u = 0x7F)
  segments : ∀ segment ∈ key.splitOn 0x2F,
    ¬ (decodeDots segment = js "." ∨ decodeDots segment = js "..")

theorem normalize_eq_ok_iff {value key : Text} :
    normalizeSgosResourceKey tables value = .ok key
      ↔ stripped (slashed tables value) = key ∧ Acceptable key := by
  have hmap : (tables.normalize (trim value)).map (fun u => if u = 0x5C then 0x2F else u)
      = slashed tables value := rfl
  have hstrip : dropSuffix (js "/") (if js "/**" <:+ slashed tables value
      then dropSuffix (js "/**") (slashed tables value)
      else dropSuffix (js "/*") (slashed tables value)) = stripped (slashed tables value) := rfl
  simp only [normalizeSgosResourceKey, hmap, hstrip, bind_eq_ok_iff, failIf_eq_ok_iff, exists_const,
    Except.ok.injEq]
  constructor
  · rintro ⟨hempty, hcontrol, hsegments, rfl⟩
    exact ⟨rfl, hempty, by simpa using hcontrol, by simpa using hsegments⟩
  · rintro ⟨rfl, h⟩
    exact ⟨h.nonempty, by simpa using h.printable, by simpa using h.segments, rfl⟩

theorem dropSuffix_isPrefix (suffix text : Text) : dropSuffix suffix text <+: text := by
  unfold dropSuffix
  split
  · exact List.take_prefix ..
  · exact List.prefix_rfl

theorem dropSuffix_of_suffix {suffix text : Text} (h : suffix <:+ text) :
    text = dropSuffix suffix text ++ suffix := by
  obtain ⟨front, rfl⟩ := h
  rw [dropSuffix, if_pos (List.suffix_append ..), List.length_append, Nat.add_sub_cancel,
    List.take_left']
  rfl

theorem dropSuffix_of_not {suffix text : Text} (h : ¬ suffix <:+ text) :
    dropSuffix suffix text = text := if_neg h

theorem stripped_isPrefix (text : Text) : stripped text <+: text := by
  refine (dropSuffix_isPrefix ..).trans ?_
  unfold dropGlob
  split <;> exact dropSuffix_isPrefix ..

/-! ## The ends of a key -/

/-- Nothing at the end of the key that another pass removes. -/
structure Tidy (key : Text) : Prop where
  blank : ∀ u, isTrimmed u = true → ¬ [u] <:+ key
  slash : ¬ js "/" <:+ key
  glob : ¬ js "/*" <:+ key
  deepGlob : ¬ js "/**" <:+ key

/-- What one pass can remove from the end of a text. -/
def removable : List Text := [js "/", js "/*", js "/**", js "//*", js "//**"]

/-- One pass removes something from the end, and leaves an end that another
pass removes. -/
def LeavesEnd (text : Text) : Prop :=
  (∃ removed ∈ removable, (∃ u ∈ text, isTrimmed u = true ∧ u :: removed <:+ text)
      ∨ js "/*" ++ removed <:+ text ∨ js "/**" ++ removed <:+ text)
    ∨ js "//" <:+ text ∨ js "///*" <:+ text ∨ js "///**" <:+ text

instance : DecidablePred LeavesEnd := fun text =>
  inferInstanceAs (Decidable ((∃ removed ∈ removable,
      (∃ u ∈ text, isTrimmed u = true ∧ u :: removed <:+ text)
        ∨ js "/*" ++ removed <:+ text ∨ js "/**" ++ removed <:+ text)
    ∨ js "//" <:+ text ∨ js "///*" <:+ text ∨ js "///**" <:+ text))

theorem exists_blank_iff {removed text : Text} :
    (∃ u ∈ text, isTrimmed u = true ∧ u :: removed <:+ text)
      ↔ ∃ u, isTrimmed u = true ∧ u :: removed <:+ text :=
  exists_congr fun _ => ⟨And.right, fun h => ⟨h.2.subset (List.mem_cons_self ..), h⟩⟩

/-- The ends of a text, read backwards. -/
theorem suffix_iff_reverse {s t : Text} : s <:+ t ↔ s.reverse <+: t.reverse :=
  List.reverse_prefix.symm

/-- What one pass has removed from the end of a text. -/
inductive Pass (key text : Text) : Prop
  | deepGlobAndSlash : text = key ++ js "//**" → Pass key text
  | globAndSlash : text = key ++ js "//*" → Pass key text
  | slash : text = key ++ js "/" → Pass key text
  | deepGlob : text = key ++ js "/**" → ¬ js "/" <:+ key → Pass key text
  | glob : text = key ++ js "/*" → ¬ js "/" <:+ key → Pass key text
  | nothing : text = key → ¬ js "/" <:+ key → ¬ js "/*" <:+ key → ¬ js "/**" <:+ key →
      Pass key text

theorem pass_stripped (text : Text) : Pass (stripped text) text := by
  have hslash : ∀ front, (¬ js "/" <:+ front ∧ dropSuffix (js "/") front = front)
      ∨ front = dropSuffix (js "/") front ++ js "/" := by
    intro front
    by_cases h : js "/" <:+ front
    · exact .inr (dropSuffix_of_suffix h)
    · exact .inl ⟨h, dropSuffix_of_not h⟩
  unfold stripped dropGlob
  by_cases hdeep : js "/**" <:+ text
  · rw [if_pos hdeep]
    have htext := dropSuffix_of_suffix hdeep
    rcases hslash (dropSuffix (js "/**") text) with ⟨hnot, hsame⟩ | hfront
    · rw [hsame]
      exact .deepGlob htext hnot
    · rw [hfront, List.append_assoc] at htext
      exact .deepGlobAndSlash htext
  · rw [if_neg hdeep]
    by_cases hglob : js "/*" <:+ text
    · have htext := dropSuffix_of_suffix hglob
      rcases hslash (dropSuffix (js "/*") text) with ⟨hnot, hsame⟩ | hfront
      · rw [hsame]
        exact .glob htext hnot
      · rw [hfront, List.append_assoc] at htext
        exact .globAndSlash htext
    · rw [dropSuffix_of_not hglob]
      rcases hslash text with ⟨hnot, hsame⟩ | hfront
      · rw [hsame]
        exact .nothing rfl hnot hglob hdeep
      · exact .slash hfront

theorem tidy_iff_reverse {key : Text} : Tidy key ↔
    (∀ u, isTrimmed u = true → ¬ [u] <+: key.reverse) ∧ ¬ [0x2F] <+: key.reverse
      ∧ ¬ [0x2A, 0x2F] <+: key.reverse ∧ ¬ [0x2A, 0x2A, 0x2F] <+: key.reverse := by
  have hreverse : ∀ {s : Text}, s.reverse <+: key.reverse ↔ s <:+ key := List.reverse_prefix
  constructor
  · rintro ⟨hblank, hslash, hglob, hdeep⟩
    exact ⟨fun u hu h => hblank u hu (hreverse.mp h), fun h => hslash (hreverse.mp h),
      fun h => hglob (hreverse.mp h), fun h => hdeep (hreverse.mp h)⟩
  · rintro ⟨hblank, hslash, hglob, hdeep⟩
    exact ⟨fun u hu h => hblank u hu (hreverse.mpr h), fun h => hslash (hreverse.mpr h),
      fun h => hglob (hreverse.mpr h), fun h => hdeep (hreverse.mpr h)⟩

/-- A text without an end has none that goes on. -/
theorem not_longer {s q : Text} (h : ¬ s <+: q) (rest : Text) : ¬ s ++ rest <+: q :=
  fun hlong => h ((List.prefix_append s rest).trans hlong)

/-- A pass leaves a tidy end, or one that shows in the text. -/
theorem tidy_iff_of_pass {key text : Text} (hpass : Pass key text)
    (hblank : ∀ u, isTrimmed u = true → ¬ [u] <:+ text) : Tidy key ↔ ¬ LeavesEnd text := by
  have hslash : isTrimmed 0x2F = false := by decide
  have h1 : js "/" = [0x2F] := rfl
  have h2 : js "/*" = [0x2F, 0x2A] := rfl
  have h3 : js "/**" = [0x2F, 0x2A, 0x2A] := rfl
  have h4 : js "//" = [0x2F, 0x2F] := rfl
  have h5 : js "//*" = [0x2F, 0x2F, 0x2A] := rfl
  have h6 : js "//**" = [0x2F, 0x2F, 0x2A, 0x2A] := rfl
  have h7 : js "///*" = [0x2F, 0x2F, 0x2F, 0x2A] := rfl
  have h8 : js "///**" = [0x2F, 0x2F, 0x2F, 0x2A, 0x2A] := rfl
  rw [tidy_iff_reverse]
  unfold LeavesEnd removable
  simp only [exists_blank_iff]
  simp only [h1, h2, h3, h4, h5, h6, h7, h8, suffix_iff_reverse] at hblank ⊢
  cases hpass with
  | deepGlobAndSlash h =>
      subst h
      simp [h6, List.cons_prefix_cons, hslash]
      tauto
  | globAndSlash h =>
      subst h
      simp [h5, List.cons_prefix_cons, hslash]
      tauto
  | slash h =>
      subst h
      simp [h1, List.cons_prefix_cons]
      tauto
  | deepGlob h hkey =>
      subst h
      rw [suffix_iff_reverse, h1] at hkey
      have hlonger : ∀ rest, ¬ 0x2F :: rest <+: key.reverse := not_longer hkey
      simp [h3, List.cons_prefix_cons, hlonger]
  | glob h hkey =>
      subst h
      rw [suffix_iff_reverse, h1] at hkey
      have hlonger : ∀ rest, ¬ 0x2F :: rest <+: key.reverse := not_longer hkey
      simp [h2, List.cons_prefix_cons, hlonger]
  | nothing h hkey hglob hdeep =>
      subst h
      rw [suffix_iff_reverse] at hkey hglob hdeep
      have hlonger : ∀ rest, ¬ 0x2F :: rest <+: text.reverse := not_longer hkey
      have hlonger' : ∀ rest, ¬ 0x2A :: 0x2F :: rest <+: text.reverse := not_longer hglob
      have hlonger'' : ∀ rest, ¬ 0x2A :: 0x2A :: 0x2F :: rest <+: text.reverse := not_longer hdeep
      simp only [List.reverse_singleton] at hblank
      simpa [hlonger, hlonger', hlonger''] using hblank

/-! ## Blanks -/

theorem isTrimmed_slash (u : UInt16) : isTrimmed (slash u) = isTrimmed u := by
  unfold slash
  split
  · next h => rw [h]; decide
  · rfl

theorem slash_slash (u : UInt16) : slash (slash u) = slash u := by
  by_cases h : u = 0x5C
  · subst h; rfl
  · have hself : slash u = u := if_neg h
    rw [hself, hself]

theorem trim_map_slash (t : Text) : trim (t.map slash) = (trim t).map slash := by
  have hcomp : isTrimmed ∘ slash = isTrimmed := funext isTrimmed_slash
  rw [trim, trim, List.dropWhile_map, hcomp, ← List.map_reverse, List.dropWhile_map, hcomp,
    ← List.map_reverse]

theorem trim_isInfix (t : Text) : trim t <:+: t := by
  have hend : trim t <+: t.dropWhile isTrimmed := by
    have h := List.reverse_prefix.mpr (List.dropWhile_suffix isTrimmed
      (l := (t.dropWhile isTrimmed).reverse))
    rwa [List.reverse_reverse] at h
  exact hend.isInfix.trans (List.dropWhile_suffix ..).isInfix

theorem dropWhile_blank_iff {t : Text} : t.dropWhile isTrimmed = t ↔
    ∀ u, isTrimmed u = true → ¬ [u] <+: t := by
  cases t with
  | nil => simp
  | cons a rest =>
      simp only [List.cons_prefix_cons, List.nil_prefix, and_true]
      cases ha : isTrimmed a with
      | false =>
          rw [List.dropWhile_cons_of_neg (by simp [ha])]
          exact iff_of_true rfl fun u hu hua => by simp [hua, ha] at hu
      | true =>
          rw [List.dropWhile_cons_of_pos ha]
          refine iff_of_false (fun h => ?_) (fun h => h a ha rfl)
          have := (List.dropWhile_suffix isTrimmed (l := rest)).length_le
          rw [h, List.length_cons] at this
          omega

/-- A text that trimming leaves as it is neither begins nor ends with a blank. -/
theorem trim_eq_self_iff {t : Text} : trim t = t ↔
    (∀ u, isTrimmed u = true → ¬ [u] <+: t) ∧ ∀ u, isTrimmed u = true → ¬ [u] <:+ t := by
  have hreverse : (∀ u, isTrimmed u = true → ¬ [u] <:+ t)
      ↔ ∀ u, isTrimmed u = true → ¬ [u] <+: t.reverse :=
    forall₂_congr fun u _ => not_congr suffix_iff_reverse
  rw [hreverse, ← dropWhile_blank_iff, ← dropWhile_blank_iff]
  constructor
  · intro h
    have hfront : t.dropWhile isTrimmed = t := by
      refine (List.dropWhile_suffix isTrimmed).eq_of_length_le ?_
      have := (List.dropWhile_suffix isTrimmed (l := (t.dropWhile isTrimmed).reverse)).length_le
      have hlength := congrArg List.length h
      rw [trim, List.length_reverse] at hlength
      rw [List.length_reverse] at this
      omega
    refine ⟨hfront, ?_⟩
    rw [trim, hfront] at h
    rw [← List.reverse_reverse (List.dropWhile isTrimmed t.reverse), h]
  · rintro ⟨hfront, hend⟩
    rw [trim, hfront, hend, List.reverse_reverse]

/-! ## The second pass -/

section SecondPass

variable (htables : NormalForm tables.normalize)

include htables

theorem trim_slashed (value : Text) : trim (slashed tables value) = slashed tables value := by
  rw [slashed, trim_map_slash, htables.trimmed (trim_trim value)]

theorem normalize_slashed (value : Text) :
    tables.normalize (slashed tables value) = slashed tables value := by
  rw [slashed, htables.slashes, htables.idempotent]

/-- A part of a text that was normalized is only trimmed. -/
theorem slashed_of_prefix {key value : Text} (h : key <+: slashed tables value) :
    slashed tables key = trim key := by
  have hpart : trim key <:+: slashed tables value := (trim_isInfix key).trans h.isInfix
  rw [slashed, htables.substring (normalize_slashed htables value) hpart]
  have hself : ∀ u ∈ trim key, slash u = id u := by
    intro u hu
    obtain ⟨v, -, rfl⟩ := List.mem_map.mp (hpart.subset hu)
    exact slash_slash v
  rw [List.map_congr_left hself, List.map_id]

/-- **The second pass** returns the same key when nothing is left at its end
that a pass removes. -/
theorem normalize_again_iff {key value : Text}
    (h : normalizeSgosResourceKey tables value = .ok key) :
    normalizeSgosResourceKey tables key = .ok key ↔ Tidy key := by
  obtain ⟨rfl, hkey⟩ := normalize_eq_ok_iff.mp h
  have hprefix := stripped_isPrefix (slashed tables value)
  generalize stripped (slashed tables value) = key at hkey hprefix
  have hfront := (trim_eq_self_iff.mp (trim_slashed htables value)).1
  have hfront' : ∀ u, isTrimmed u = true → ¬ [u] <+: key :=
    fun u hu hpre => hfront u hu (hpre.trans hprefix)
  rw [normalize_eq_ok_iff, slashed_of_prefix htables hprefix]
  constructor
  · rintro ⟨hsame, -⟩
    have hlength := (stripped_isPrefix (trim key)).length_le
    have htrim : trim key = key :=
      (trim_isInfix key).eq_of_length_le (by rw [hsame] at hlength; exact hlength)
    rw [htrim] at hsame
    have hpass := pass_stripped key
    rw [hsame] at hpass
    cases hpass with
    | nothing _ hslash hglob hdeep =>
        exact ⟨(trim_eq_self_iff.mp htrim).2, hslash, hglob, hdeep⟩
    | deepGlobAndSlash h | globAndSlash h | slash h | deepGlob h | glob h =>
        exact absurd (List.append_right_eq_self.mp h.symm) (by decide)
  · intro htidy
    have htrim : trim key = key := trim_eq_self_iff.mpr ⟨hfront', htidy.blank⟩
    refine ⟨?_, hkey⟩
    rw [htrim, stripped, dropGlob, if_neg htidy.deepGlob, dropSuffix_of_not htidy.glob,
      dropSuffix_of_not htidy.slash]

/-- In terms of the declared text. -/
theorem normalize_twice_iff {key value : Text}
    (h : normalizeSgosResourceKey tables value = .ok key) :
    normalizeSgosResourceKey tables key = .ok key ↔ ¬ LeavesEnd (slashed tables value) := by
  have hpass := pass_stripped (slashed tables value)
  rw [(normalize_eq_ok_iff.mp h).1] at hpass
  rw [normalize_again_iff htables h]
  exact tidy_iff_of_pass hpass (trim_eq_self_iff.mp (trim_slashed htables value)).2

end SecondPass

/-! ## Segments -/

/-- The segments of the first key begin the second. -/
def SegmentPrefix (key other : Text) : Prop := key.splitOn 0x2F <+: other.splitOn 0x2F

theorem intercalate_append {α : Type} {separator : List α} {front back : List (List α)}
    (hfront : front ≠ []) (hback : back ≠ []) : List.intercalate separator (front ++ back)
      = List.intercalate separator front ++ (separator ++ List.intercalate separator back) := by
  induction front with
  | nil => exact absurd rfl hfront
  | cons l front ih =>
      cases front with
      | nil =>
          rw [List.singleton_append, List.intercalate_cons_of_ne_nil hback,
            List.intercalate_singleton, List.append_assoc]
      | cons l' front =>
          rw [List.cons_append, List.intercalate_cons_of_ne_nil (by simp),
            ih (List.cons_ne_nil _ _), List.intercalate_cons_cons]
          simp only [List.append_assoc]

theorem segmentPrefix_iff {key other : Text} :
    SegmentPrefix key other ↔ key = other ∨ key ++ js "/" <+: other := by
  constructor
  · rintro ⟨rest, h⟩
    have hother := congrArg (List.intercalate [0x2F]) h
    rw [List.intercalate_splitOn] at hother
    cases rest with
    | nil =>
        rw [List.append_nil, List.intercalate_splitOn] at hother
        exact .inl hother
    | cons segment rest =>
        rw [intercalate_append (List.splitOn_ne_nil _ _) (List.cons_ne_nil _ _),
          List.intercalate_splitOn, ← List.append_assoc] at hother
        exact .inr ⟨_, hother⟩
  · rintro (rfl | ⟨rest, rfl⟩)
    · exact List.prefix_rfl
    · refine ⟨rest.splitOn 0x2F, ?_⟩
      have hslash : js "/" = [0x2F] := rfl
      rw [hslash, List.append_assoc, List.singleton_append, List.splitOn_append_cons_self]

/-- The comparison of two keys after the passes. -/
def keysOverlap (a b : Text) : Bool :=
  a = js "*" || b = js "*" || a = b || (b ++ js "/").isPrefixOf a || (a ++ js "/").isPrefixOf b

theorem sgosResourceKeysOverlap_eq {left right a b : Text}
    (hleft : normalizeSgosResourceKey tables left = .ok a)
    (hright : normalizeSgosResourceKey tables right = .ok b) :
    sgosResourceKeysOverlap tables left right = .ok (keysOverlap a b) := by
  rw [sgosResourceKeysOverlap, hleft, hright]
  rfl

theorem keysOverlap_iff {a b : Text} : keysOverlap a b = true ↔
    a = js "*" ∨ b = js "*" ∨ a = b ∨ SegmentPrefix a b ∨ SegmentPrefix b a := by
  simp only [keysOverlap, Bool.or_eq_true, decide_eq_true_eq, List.isPrefixOf_iff_prefix,
    segmentPrefix_iff]
  constructor
  · rintro ((((h | h) | h) | h) | h)
    · exact .inl h
    · exact .inr (.inl h)
    · exact .inr (.inr (.inl h))
    · exact .inr (.inr (.inr (.inr (.inr h))))
    · exact .inr (.inr (.inr (.inl (.inr h))))
  · rintro (h | h | h | (h | h) | (h | h))
    · exact .inl (.inl (.inl (.inl h)))
    · exact .inl (.inl (.inl (.inr h)))
    · exact .inl (.inl (.inr h))
    · exact .inl (.inl (.inr h))
    · exact .inr h
    · exact .inl (.inl (.inr h.symm))
    · exact .inl (.inr h)

/-! ## Declarations -/

/-- The declared texts with their modes, not normalized. -/
def rawEntries (resources : Resources) : List ResourceEntry :=
  (declaredResources resources).map fun p => ⟨p.1, p.2⟩

/-- A declared entry under the key that the first pass leaves. -/
def canonicalEntry (tables : UnicodeTables) (raw : ResourceEntry) : ResourceEntry :=
  ⟨stripped (slashed tables raw.key), raw.mode⟩

/-- The canonical entries are the declared ones, normalized. -/
theorem canonicalSgosResourceEntries_spec {resources : Resources} {entries : List ResourceEntry}
    (h : canonicalSgosResourceEntries tables resources = .ok entries) :
    (∀ raw ∈ rawEntries resources,
        normalizeSgosResourceKey tables raw.key = .ok (canonicalEntry tables raw).key)
      ∧ ∀ entry, entry ∈ entries ↔ entry ∈ (rawEntries resources).map (canonicalEntry tables) := by
  simp only [canonicalSgosResourceEntries, bind_eq_ok_iff, failIf_eq_ok_iff, exists_const,
    Except.ok.injEq] at h
  obtain ⟨read, hread, -, rfl⟩ := h
  have hkey : ∀ raw ∈ rawEntries resources,
      normalizeSgosResourceKey tables raw.key = .ok (canonicalEntry tables raw).key := by
    intro raw hraw
    obtain ⟨p, hp, rfl⟩ := List.mem_map.mp hraw
    obtain ⟨entry, hentry⟩ := exists_sequence_iff.mp ⟨read, hread⟩ p hp
    obtain ⟨key, hkey, -⟩ := bind_eq_ok_iff.mp hentry
    rw [hkey, canonicalEntry, (normalize_eq_ok_iff.mp hkey).1]
  refine ⟨hkey, fun entry => ?_⟩
  rw [List.mem_insertionSort, mem_distinct, mem_of_sequence hread, rawEntries, List.map_map,
    List.mem_map]
  refine exists_congr fun p => and_congr_right fun hp => ?_
  rw [hkey _ (List.mem_map_of_mem hp)]
  exact ⟨Except.ok.inj, congrArg Except.ok⟩

theorem any_congr_mem {α : Type} {l l' : List α} {test : α → Bool} (h : ∀ a, a ∈ l ↔ a ∈ l') :
    l.any test = l'.any test := by
  rw [Bool.eq_iff_iff, List.any_eq_true, List.any_eq_true]
  exact exists_congr fun a => and_congr_left fun _ => h a

/-- The conflict of entries of which every key normalizes to `keyOf` the entry. -/
theorem sgosResourceEntriesConflict_eq {keyOf : ResourceEntry → Text}
    {left right : List ResourceEntry}
    (hleft : ∀ entry ∈ left, normalizeSgosResourceKey tables entry.key = .ok (keyOf entry))
    (hright : ∀ entry ∈ right, normalizeSgosResourceKey tables entry.key = .ok (keyOf entry)) :
    sgosResourceEntriesConflict tables left right = .ok (left.any fun a => right.any fun b =>
      modesConflict a.mode b.mode && keysOverlap (keyOf a) (keyOf b)) := by
  refine someM_eq_ok fun a ha => someM_eq_ok fun b hb => ?_
  rw [entryConflict]
  cases modesConflict a.mode b.mode with
  | false => rfl
  | true => exact sgosResourceKeysOverlap_eq (hleft a ha) (hright b hb)

/-- What the declarations of two tasks owe to each other, however they are
spelled. -/
structure SpellingIndependent (tables : UnicodeTables) (left right : Resources)
    (leftEntries rightEntries : List ResourceEntry) : Prop where
  /-- Normalizing a key again returns it. -/
  fixed : ∀ raw ∈ rawEntries left ++ rawEntries right, ∀ key,
    normalizeSgosResourceKey tables raw.key = .ok key → normalizeSgosResourceKey tables key = .ok key
  /-- The conflict of the canonical entries does not throw, and is that of the
  declarations. -/
  conflict : ∃ conflict, sgosResourceEntriesConflict tables leftEntries rightEntries = .ok conflict
    ∧ sgosResourceEntriesConflict tables (rawEntries left) (rawEntries right) = .ok conflict
  /-- An overlap is mutual, and a matter of path segments. -/
  overlap : ∀ a ∈ leftEntries ++ rightEntries, ∀ b ∈ leftEntries ++ rightEntries, ∃ overlap,
    sgosResourceKeysOverlap tables a.key b.key = .ok overlap
      ∧ sgosResourceKeysOverlap tables b.key a.key = .ok overlap
      ∧ (overlap = true ↔ a.key = js "*" ∨ b.key = js "*" ∨ a.key = b.key
          ∨ SegmentPrefix a.key b.key ∨ SegmentPrefix b.key a.key)

/-- **Spelling.**  The spelling of declarations does not matter exactly when no
declared text ends in something of which one pass leaves a part that the next
pass removes. -/
theorem spellingIndependent_iff {left right : Resources}
    {leftEntries rightEntries : List ResourceEntry} (htables : NormalForm tables.normalize)
    (hleft : canonicalSgosResourceEntries tables left = .ok leftEntries)
    (hright : canonicalSgosResourceEntries tables right = .ok rightEntries) :
    SpellingIndependent tables left right leftEntries rightEntries
      ↔ ∀ raw ∈ rawEntries left ++ rawEntries right, ¬ LeavesEnd (slashed tables raw.key) := by
  obtain ⟨hleftKey, hleftMem⟩ := canonicalSgosResourceEntries_spec hleft
  obtain ⟨hrightKey, hrightMem⟩ := canonicalSgosResourceEntries_spec hright
  have hkey : ∀ raw ∈ rawEntries left ++ rawEntries right,
      normalizeSgosResourceKey tables raw.key = .ok (canonicalEntry tables raw).key :=
    List.forall_mem_append.mpr ⟨hleftKey, hrightKey⟩
  constructor
  · intro h raw hraw
    exact (normalize_twice_iff htables (hkey raw hraw)).mp (h.fixed raw hraw _ (hkey raw hraw))
  · intro hends
    have hfixed : ∀ raw ∈ rawEntries left ++ rawEntries right, ∀ key,
        normalizeSgosResourceKey tables raw.key = .ok key →
          normalizeSgosResourceKey tables key = .ok key := fun raw hraw key hkey =>
      (normalize_twice_iff htables hkey).mpr (hends raw hraw)
    have hentryFixed : ∀ entry ∈ leftEntries ++ rightEntries,
        normalizeSgosResourceKey tables entry.key = .ok entry.key := by
      intro entry hentry
      have hmap : entry ∈ (rawEntries left ++ rawEntries right).map (canonicalEntry tables) := by
        rw [List.map_append, List.mem_append, ← hleftMem, ← hrightMem]
        exact List.mem_append.mp hentry
      obtain ⟨raw, hraw, rfl⟩ := List.mem_map.mp hmap
      exact hfixed raw hraw _ (hkey raw hraw)
    obtain ⟨hleftFixed, hrightFixed⟩ := List.forall_mem_append.mp hentryFixed
    refine ⟨hfixed, ⟨_, ?_, sgosResourceEntriesConflict_eq hleftKey hrightKey⟩, ?_⟩
    · rw [sgosResourceEntriesConflict_eq hleftFixed hrightFixed, any_congr_mem hleftMem,
        List.any_map]
      simp only [any_congr_mem hrightMem, List.any_map]
      rfl
    · intro a ha b hb
      have h := sgosResourceKeysOverlap_eq (hentryFixed a ha) (hentryFixed b hb)
      exact ⟨_, h, sgosResourceKeysOverlap_comm h, keysOverlap_iff⟩

/-! ## Spellings that matter -/

def writing (keys : List Text) : Resources := ⟨[], keys, [], []⟩

theorem spellingIndependent_iff_plain : SpellingIndependent asciiTables
    (writing [js "src/**"]) (writing [js "src\\a"])
    [⟨js "src", .write⟩] [⟨js "src/a", .write⟩] :=
  (spellingIndependent_iff normalForm_ascii rfl rfl).mpr (by decide)

/-- One glob after another: the first pass leaves `a/*`, which the second
widens to `a`.  The scheduler refuses a pair that was declared to be free. -/
theorem not_spellingIndependent_globs : ¬ SpellingIndependent asciiTables
    (writing [js "a/*/**"]) (writing [js "a/b"])
    [⟨js "a/*", .write⟩] [⟨js "a/b", .write⟩] := by
  intro h
  obtain ⟨conflict, hcanonical, hraw⟩ := h.conflict
  have hwidened : sgosResourceEntriesConflict asciiTables
      [⟨js "a/*", .write⟩] [⟨js "a/b", .write⟩] = .ok true := rfl
  have hfree : sgosResourceEntriesConflict asciiTables
      (rawEntries (writing [js "a/*/**"])) (rawEntries (writing [js "a/b"])) = .ok false := rfl
  rw [hwidened] at hcanonical
  rw [hfree, ← hcanonical] at hraw
  cases hraw

example : canonicalSgosResourceEntries asciiTables (writing [js "a/*/**"])
    = .ok [⟨js "a/*", .write⟩] := rfl

example : normalizeSgosResourceKey asciiTables (js "/*")
    = .error (resourceFail (js "A resource key cannot be empty.")) := rfl

end Sgos

end SingularityFlow
