/-
# Content ids

`collisionSafeIds` gives each digest a visible first part of it.  All begin with the
same length; in each round those that look the same are all made longer by one.  So a
digest ends with the first length at which no other digest has its first part
(`Ends`), and everything else follows from that: the ids tell the digests apart, none
is the beginning of another, only the set of the digests counts, and more digests
make ids longer only.
-/
import SingularityFlow.Lib.Collections
import SingularityFlow.Errors
import Mathlib.Data.List.Sort

namespace SingularityFlow

open Ecma

namespace WorldModel

/-! ## The function -/

def isDigestUnit (u : UInt16) : Bool :=
  (0x30 ≤ u.toNat && u.toNat ≤ 0x39) || (0x61 ≤ u.toNat && u.toNat ≤ 0x66)

/-- `/^[a-f0-9]{64}$/`. -/
def isDigest (digest : Text) : Bool := digest.length = 64 && digest.all isDigestUnit

/-- `value.replace(/^sha256:/, '')`. -/
def withoutAlgorithm (value : Text) : Text := if js "sha256:" <+: value then value.drop 7 else value

def digestHex (value : Text) : Except Failure Text :=
  if isDigest (withoutAlgorithm value) then .ok (withoutAlgorithm value)
  else .error (.typeError (js "World-model digest must be a lowercase SHA-256 value."))

/-- A digest is put into the group of what is visible of it. -/
def intoGroup (visible : Text → Text) (groups : List (Text × List Text)) (digest : Text) :
    List (Text × List Text) :=
  if groups.any fun group => group.1 = visible digest then
    groups.map fun group =>
      if group.1 = visible digest then (group.1, group.2 ++ [digest]) else group
  else groups ++ [(visible digest, [digest])]

def groupsOf (visible : Text → Text) (unique : List Text) : List (Text × List Text) :=
  unique.foldl (intoGroup visible) []

/-- The digests of groups with more than one. -/
def colliding (visible : Text → Text) (unique : List Text) : List Text :=
  ((groupsOf visible unique).filter fun group => 1 < group.2.length).flatMap Prod.snd

def digestCollision : Failure :=
  .typeError (js "Distinct world-model content descriptors produced the same full SHA-256 digest.")

/-- More is shown of each of some digests. -/
def extendAll : List Text → (Text → Nat) → Except Failure (Text → Nat)
  | [], lengths => .ok lengths
  | digest :: rest, lengths =>
      if 64 < lengths digest + 1 then .error digestCollision
      else extendAll rest (Function.update lengths digest (lengths digest + 1))

def visibleBy (lengths : Text → Nat) (digest : Text) : Text := digest.take (lengths digest)

/-- The rounds; `none` where the fuel does not reach the last one. -/
def extendRounds (unique : List Text) : Nat → (Text → Nat) → Option (Except Failure (Text → Nat))
  | 0, _ => none
  | fuel + 1, lengths =>
      let collisions := colliding (visibleBy lengths) unique
      if collisions = [] then some (.ok lengths)
      else
        match extendAll collisions lengths with
        | .error failure => some (.error failure)
        | .ok lengths => extendRounds unique fuel lengths

/-- The digests, each once and in the order of code units. -/
def uniqueDigests (digests : List Text) : List Text := (distinct digests).insertionSort LeUnits

/-- There are at most as many rounds as digits, and one that finds nothing. -/
def roundsFuel : Nat := 65

def collisionSafeIds (digests : List Text) (start : Text) (minimumLength : Nat) :
    Option (Except Failure (List (Text × Text))) :=
  if start = [] then some (.error (.typeError (js "Content ID prefix is required.")))
  else if minimumLength < 1 ∨ 64 < minimumLength then
    some (.error (.typeError (js "Content ID minimumLength must be an integer from 1 through 64.")))
  else
    match sequence (digests.map digestHex) with
    | .error failure => some (.error failure)
    | .ok digests =>
        let unique := uniqueDigests digests
        (extendRounds unique roundsFuel fun _ => minimumLength).map fun result =>
          result.map fun lengths => unique.map fun digest => (digest, start ++ visibleBy lengths digest)

/-! ## Groups -/

theorem distinct_concat {α : Type} [DecidableEq α] (l : List α) (a : α) :
    distinct (l ++ [a]) = if a ∈ l then distinct l else distinct l ++ [a] := by
  induction l with
  | nil => rfl
  | cons b l ih =>
      rw [List.cons_append, distinct, ih, distinct]
      by_cases hmem : a ∈ l
      · rw [if_pos hmem, if_pos (List.mem_cons_of_mem _ hmem)]
      · rw [if_neg hmem]
        by_cases heq : a = b
        · subst heq
          rw [if_pos List.mem_cons_self, List.filter_append]
          simp
        · rw [if_neg (by simp [heq, hmem]), List.filter_append]
          simp [heq]

theorem groupsOf_eq (visible : Text → Text) (unique : List Text) :
    groupsOf visible unique = (distinct (unique.map visible)).map fun text =>
      (text, unique.filter (visible · = text)) := by
  induction unique using List.reverseRecOn with
  | nil => rfl
  | append_singleton unique digest ih =>
      unfold groupsOf at ih ⊢
      rw [List.foldl_append, ih, List.map_append]
      change intoGroup visible _ digest = (distinct (unique.map visible ++ [visible digest])).map _
      rw [distinct_concat]
      unfold intoGroup
      have hany : ((distinct (unique.map visible)).map fun text =>
          (text, unique.filter (visible · = text))).any (fun group => group.1 = visible digest) = true
            ↔ visible digest ∈ unique.map visible := by
        rw [List.any_map, List.any_eq_true]
        simp
      by_cases hmem : visible digest ∈ unique.map visible
      · rw [if_pos hmem, if_pos (hany.mpr hmem), List.map_map]
        refine List.map_congr_left fun text _ => ?_
        change (if text = visible digest then _ else _) = _
        rw [List.filter_append]
        by_cases heq : text = visible digest
        · simp [heq]
        · simp [heq, Ne.symm heq]
      · rw [if_neg hmem, if_neg (hany.not.mpr hmem), List.map_append]
        congr 1
        · refine List.map_congr_left fun text htext => ?_
          have hne : visible digest ≠ text := fun heq => hmem (heq ▸ mem_distinct.mp htext)
          rw [List.filter_append]
          simp [hne]
        · have hnone : unique.filter (visible · = visible digest) = [] := by
            rw [List.filter_eq_nil_iff]
            intro other hother heq
            exact hmem (List.mem_map.mpr ⟨other, hother, of_decide_eq_true heq⟩)
          rw [List.map_cons, List.map_nil, List.filter_append, hnone]
          simp

theorem one_lt_length_iff {l : List Text} (hnodup : l.Nodup) {a : Text} (ha : a ∈ l) :
    1 < l.length ↔ ∃ b ∈ l, b ≠ a := by
  constructor
  · intro hlength
    by_contra hnone
    push Not at hnone
    have hrepeat := List.eq_replicate_of_mem hnone
    rw [hrepeat, List.nodup_replicate] at hnodup
    omega
  · rintro ⟨b, hb, hne⟩
    have hsubset : [a, b] ⊆ l := by simp [ha, hb]
    exact (List.nodup_cons.mpr ⟨by simpa using hne.symm, List.nodup_singleton b⟩).subperm hsubset |>.length_le

/-- A digest collides with another that looks the same. -/
theorem mem_colliding {visible : Text → Text} {unique : List Text} (hnodup : unique.Nodup) {digest : Text} :
    digest ∈ colliding visible unique ↔
      digest ∈ unique ∧ ∃ other ∈ unique, other ≠ digest ∧ visible other = visible digest := by
  unfold colliding
  rw [groupsOf_eq, List.mem_flatMap]
  constructor
  · rintro ⟨group, hgroup, hmem⟩
    obtain ⟨hgroup, hlength⟩ := List.mem_filter.mp hgroup
    obtain ⟨text, -, rfl⟩ := List.mem_map.mp hgroup
    obtain ⟨other, hother, hne⟩ :=
      (one_lt_length_iff (hnodup.filter _) hmem).mp (of_decide_eq_true hlength)
    obtain ⟨hdigest, htext⟩ := List.mem_filter.mp hmem
    obtain ⟨hother, htext'⟩ := List.mem_filter.mp hother
    exact ⟨hdigest, other, hother, hne, (of_decide_eq_true htext').trans (of_decide_eq_true htext).symm⟩
  · rintro ⟨hdigest, other, hother, hne, hsame⟩
    have hmem : digest ∈ unique.filter (visible · = visible digest) :=
      List.mem_filter.mpr ⟨hdigest, decide_eq_true rfl⟩
    refine ⟨(visible digest, unique.filter (visible · = visible digest)), List.mem_filter.mpr ⟨?_, ?_⟩, hmem⟩
    · exact List.mem_map_of_mem (mem_distinct.mpr (List.mem_map_of_mem hdigest))
    · exact decide_eq_true ((one_lt_length_iff (hnodup.filter _) hmem).mpr
        ⟨other, List.mem_filter.mpr ⟨hother, decide_eq_true hsame⟩, hne⟩)

theorem nodup_colliding {visible : Text → Text} {unique : List Text} (hnodup : unique.Nodup) :
    (colliding visible unique).Nodup := by
  unfold colliding
  rw [groupsOf_eq]
  refine List.nodup_flatMap.mpr ⟨fun group hgroup => ?_, ?_⟩
  · obtain ⟨text, -, rfl⟩ := List.mem_map.mp (List.mem_filter.mp hgroup).1
    exact hnodup.filter _
  · refine List.Pairwise.filter _ (List.pairwise_map.mpr ((nodup_distinct _).imp fun hne => ?_))
    intro digest hleft hright
    exact hne ((of_decide_eq_true (List.mem_filter.mp hleft).2).symm.trans
      (of_decide_eq_true (List.mem_filter.mp hright).2))

theorem extendAll_eq {rest : List Text} (hnodup : rest.Nodup) : ∀ {lengths : Text → Nat},
    (∀ digest ∈ rest, lengths digest < 64) →
      extendAll rest lengths = .ok fun digest => if digest ∈ rest then lengths digest + 1 else lengths digest := by
  induction rest with
  | nil =>
      intro lengths _
      simp [extendAll]
  | cons first rest ih =>
      intro lengths hshort
      obtain ⟨hfirst, hnodup⟩ := List.nodup_cons.mp hnodup
      obtain ⟨hhead, htail⟩ := List.forall_mem_cons.mp hshort
      have hkept : ∀ digest ∈ rest,
          Function.update lengths first (lengths first + 1) digest = lengths digest := by
        intro digest hmem
        refine Function.update_of_ne (fun heq => ?_) ..
        exact hfirst (heq ▸ hmem)
      rw [extendAll, if_neg (by omega), ih hnodup fun digest hmem => hkept digest hmem ▸ htail digest hmem]
      congr 1
      funext digest
      by_cases hdigest : digest = first
      · subst hdigest
        rw [if_neg hfirst, if_pos List.mem_cons_self, Function.update_self]
      · rw [Function.update_of_ne hdigest]
        exact if_congr (by rw [List.mem_cons, or_iff_right hdigest]) rfl rfl

/-! ## What a length has to do -/

section Lengths

variable {unique : List Text} {minimumLength : Nat}

/-- No other digest has the first part of this length. -/
def Alone (unique : List Text) (length : Nat) (digest : Text) : Prop :=
  ∀ other ∈ unique, other.take length = digest.take length → other = digest

/-- The first length from the least one on at which a digest is alone. -/
structure Ends (unique : List Text) (minimumLength length : Nat) (digest : Text) : Prop where
  least : minimumLength ≤ length
  alone : Alone unique length digest
  shared : ∀ shorter, minimumLength ≤ shorter → shorter < length → ¬ Alone unique shorter digest

theorem Ends.le {length length' : Nat} {digest : Text} (h : Ends unique minimumLength length digest)
    (hleast : minimumLength ≤ length') (halone : Alone unique length' digest) : length ≤ length' := by
  by_contra hlt
  exact h.shared length' hleast (Nat.not_le.mp hlt) halone

/-! ## Rounds -/

/-- After some rounds, all digests that are not alone yet show the same length. -/
structure Stage (unique : List Text) (minimumLength round : Nat) (lengths : Text → Nat) : Prop where
  least : ∀ digest ∈ unique, minimumLength ≤ lengths digest
  most : ∀ digest ∈ unique, lengths digest ≤ minimumLength + round
  ended : ∀ digest ∈ unique, lengths digest = minimumLength + round ∨ Alone unique (lengths digest) digest
  shared : ∀ digest ∈ unique, ∀ shorter, minimumLength ≤ shorter → shorter < lengths digest →
    ¬ Alone unique shorter digest

theorem stage_start : Stage unique minimumLength 0 fun _ => minimumLength where
  least _ _ := Nat.le_refl _
  most _ _ := Nat.le_refl _
  ended _ _ := .inl rfl
  shared _ _ _ hle hlt := absurd hle (Nat.not_le.mpr hlt)

variable {round : Nat} {lengths : Text → Nat}

theorem alone_whole (hwhole : ∀ digest ∈ unique, digest.length = 64) {digest : Text} (hmem : digest ∈ unique)
    {length : Nat} (hle : 64 ≤ length) : Alone unique length digest := by
  intro other hother hsame
  rwa [List.take_of_length_le (by rw [hwhole other hother]; exact hle),
    List.take_of_length_le (by rw [hwhole digest hmem]; exact hle)] at hsame

theorem Stage.le_whole (h : Stage unique minimumLength round lengths) (hmin : minimumLength ≤ 64)
    (hwhole : ∀ digest ∈ unique, digest.length = 64) {digest : Text} (hmem : digest ∈ unique) :
    lengths digest ≤ 64 := by
  by_contra hlt
  exact h.shared digest hmem 64 hmin (Nat.not_le.mp hlt) (alone_whole hwhole hmem (Nat.le_refl _))

/-- A digest collides exactly if it is not alone with what it shows. -/
theorem Stage.collides_iff (h : Stage unique minimumLength round lengths) (hmin : minimumLength ≤ 64)
    (hwhole : ∀ digest ∈ unique, digest.length = 64) (hnodup : unique.Nodup) {digest : Text} :
    digest ∈ colliding (visibleBy lengths) unique ↔
      digest ∈ unique ∧ ¬ Alone unique (lengths digest) digest := by
  rw [mem_colliding hnodup]
  refine and_congr_right fun hmem => ?_
  constructor
  · rintro ⟨other, hother, hne, hsame⟩ halone
    have hlengths := congrArg List.length hsame
    unfold visibleBy at hlengths hsame
    rw [List.length_take, List.length_take, hwhole other hother, hwhole digest hmem,
      min_eq_left (h.le_whole hmin hwhole hother), min_eq_left (h.le_whole hmin hwhole hmem)] at hlengths
    rw [hlengths] at hsame
    exact hne (halone other hother hsame)
  · intro halone
    unfold Alone at halone
    push Not at halone
    obtain ⟨other, hother, hsame, hne⟩ := halone
    refine ⟨other, hother, hne, ?_⟩
    have hlast : lengths digest = minimumLength + round := (h.ended digest hmem).resolve_right
      fun halone => hne (halone other hother hsame)
    rcases h.ended other hother with hother' | halone
    · unfold visibleBy
      rw [hother', ← hlast, hsame]
    · have hle : lengths other ≤ lengths digest := hlast ▸ h.most other hother
      refine absurd ((halone digest hmem ?_).symm) hne
      rw [← min_eq_left hle, ← List.take_take, ← List.take_take, hsame]

theorem Stage.next (h : Stage unique minimumLength round lengths) (hmin : minimumLength ≤ 64)
    (hwhole : ∀ digest ∈ unique, digest.length = 64) (hnodup : unique.Nodup) :
    Stage unique minimumLength (round + 1) fun digest =>
      if digest ∈ colliding (visibleBy lengths) unique then lengths digest + 1 else lengths digest := by
  have hcollides : ∀ {digest : Text}, digest ∈ colliding (visibleBy lengths) unique ↔
      digest ∈ unique ∧ ¬ Alone unique (lengths digest) digest := h.collides_iff hmin hwhole hnodup
  refine ⟨fun digest hmem => ?_, fun digest hmem => ?_, fun digest hmem => ?_,
    fun digest hmem shorter hle hlt => ?_⟩
  · have := h.least digest hmem
    split <;> omega
  · have := h.most digest hmem
    split <;> omega
  · split
    · next hcollision =>
        have := (h.ended digest hmem).resolve_right (hcollides.mp hcollision).2
        exact .inl (by omega)
    · next hcollision =>
        rw [hcollides, not_and, not_not] at hcollision
        exact .inr (hcollision hmem)
  · split at hlt
    · next hcollision =>
        rcases Nat.lt_succ_iff_lt_or_eq.mp hlt with hlt | rfl
        · exact h.shared digest hmem shorter hle hlt
        · exact (hcollides.mp hcollision).2
    · exact h.shared digest hmem shorter hle hlt

/-- **The rounds end**, and each digest with the length that it needs. -/
theorem extendRounds_ends (hmin : minimumLength ≤ 64) (hwhole : ∀ digest ∈ unique, digest.length = 64)
    (hnodup : unique.Nodup) : ∀ (fuel : Nat) {round : Nat} {lengths : Text → Nat},
      Stage unique minimumLength round lengths → minimumLength + round ≤ 64 →
      65 ≤ minimumLength + round + fuel → ∃ lengths', extendRounds unique fuel lengths = some (.ok lengths') ∧
        ∀ digest ∈ unique, Ends unique minimumLength (lengths' digest) digest := by
  intro fuel
  induction fuel with
  | zero =>
      intro round lengths _ hle hfuel
      omega
  | succ fuel ih =>
      intro round lengths hstage hle hfuel
      have hcollides : ∀ {digest : Text}, digest ∈ colliding (visibleBy lengths) unique ↔
          digest ∈ unique ∧ ¬ Alone unique (lengths digest) digest := hstage.collides_iff hmin hwhole hnodup
      rw [extendRounds]
      split
      · next hnone =>
          refine ⟨lengths, rfl, fun digest hmem => ⟨hstage.least digest hmem, ?_, hstage.shared digest hmem⟩⟩
          by_contra halone
          exact List.not_mem_nil (hnone ▸ hcollides.mpr ⟨hmem, halone⟩)
      · next hsome =>
          -- those that collide show less than all of their digits
          have hshort : ∀ digest ∈ colliding (visibleBy lengths) unique, lengths digest < 64 := by
            intro digest hcollision
            obtain ⟨hmem, halone⟩ := hcollides.mp hcollision
            exact Nat.not_le.mp fun hle => halone (alone_whole hwhole hmem hle)
          rw [extendAll_eq (nodup_colliding hnodup) hshort]
          obtain ⟨digest, hcollision⟩ := List.exists_mem_of_ne_nil _ hsome
          obtain ⟨hmem, halone⟩ := hcollides.mp hcollision
          have hlast := (hstage.ended digest hmem).resolve_right halone
          have := hshort digest hcollision
          exact ih (hstage.next hmin hwhole hnodup) (by omega) (by omega)

end Lengths

/-! ## The ids -/

section Ids

variable {digests hexes : List Text} {start : Text} {minimumLength : Nat}

@[simp] theorem mem_uniqueDigests {digest : Text} : digest ∈ uniqueDigests hexes ↔ digest ∈ hexes := by
  rw [uniqueDigests, List.mem_insertionSort, mem_distinct]

theorem nodup_uniqueDigests : (uniqueDigests hexes).Nodup :=
  (List.perm_insertionSort _ _).nodup_iff.mpr (nodup_distinct hexes)

/-- Only the set of the digests counts. -/
theorem uniqueDigests_congr {hexes' : List Text} (h : ∀ digest, digest ∈ hexes' ↔ digest ∈ hexes) :
    uniqueDigests hexes' = uniqueDigests hexes := by
  have hperm : (uniqueDigests hexes').Perm (uniqueDigests hexes) :=
    (List.perm_ext_iff_of_nodup nodup_uniqueDigests nodup_uniqueDigests).mpr fun digest => by simp [h]
  exact hperm.eq_of_pairwise (fun _ _ _ _ => leUnits_antisymm) (List.pairwise_insertionSort _ _)
    (List.pairwise_insertionSort _ _)

theorem length_of_hexes (h : sequence (digests.map digestHex) = .ok hexes) :
    ∀ digest ∈ hexes, digest.length = 64 := by
  intro digest hmem
  obtain ⟨value, -, hvalue⟩ := (mem_of_sequence h).mp hmem
  unfold digestHex at hvalue
  split at hvalue
  · next hdigest =>
      rw [← Except.ok.inj hvalue]
      exact of_decide_eq_true (Bool.and_eq_true_iff.mp hdigest).1
  · cases hvalue

/-- The ids, and what their lengths are. -/
theorem collisionSafeIds_eq (hstart : start ≠ []) (hleast : 1 ≤ minimumLength) (hmost : minimumLength ≤ 64)
    (h : sequence (digests.map digestHex) = .ok hexes) : ∃ lengths : Text → Nat,
      collisionSafeIds digests start minimumLength
        = some (.ok ((uniqueDigests hexes).map fun digest => (digest, start ++ digest.take (lengths digest)))) ∧
      ∀ digest ∈ uniqueDigests hexes, Ends (uniqueDigests hexes) minimumLength (lengths digest) digest := by
  have hwhole : ∀ digest ∈ uniqueDigests hexes, digest.length = 64 := fun digest hmem =>
    length_of_hexes h digest (mem_uniqueDigests.mp hmem)
  obtain ⟨lengths, hrounds, hends⟩ := extendRounds_ends hmost hwhole nodup_uniqueDigests
    roundsFuel stage_start hmost (by rw [roundsFuel]; omega)
  refine ⟨lengths, ?_, hends⟩
  unfold collisionSafeIds
  rw [if_neg hstart, if_neg (by omega), h]
  dsimp only
  rw [hrounds]
  rfl

/-- **`collisionSafeIds` is a sound naming.**  Each digest has one id, a first part of
the digest behind the start; no id is the beginning of that of another digest; order
and repetition do not matter, and with more digests ids become longer only. -/
theorem collisionSafeIds_sound (digests hexes : List Text) (start : Text) (minimumLength : Nat)
    (hstart : start ≠ []) (hleast : 1 ≤ minimumLength) (hmost : minimumLength ≤ 64)
    (hhexes : sequence (digests.map digestHex) = .ok hexes) :
    ∃ ids, collisionSafeIds digests start minimumLength = some (.ok ids) ∧
      (ids.map Prod.fst).Nodup ∧ (∀ digest, digest ∈ ids.map Prod.fst ↔ digest ∈ hexes) ∧
      (∀ digest id, (digest, id) ∈ ids → ∃ length, minimumLength ≤ length ∧ id = start ++ digest.take length) ∧
      (∀ digest id other id', (digest, id) ∈ ids → (other, id') ∈ ids → digest ≠ other →
        id ≠ id' ∧ ¬ id <+: id') ∧
      (∀ digests' hexes', sequence (digests'.map digestHex) = .ok hexes' →
        (∀ digest, digest ∈ hexes' ↔ digest ∈ hexes) →
          collisionSafeIds digests' start minimumLength = collisionSafeIds digests start minimumLength) ∧
      ∀ digests' hexes' ids', sequence (digests'.map digestHex) = .ok hexes' → hexes ⊆ hexes' →
        collisionSafeIds digests' start minimumLength = some (.ok ids') →
          ∀ digest id, (digest, id) ∈ ids → ∃ id', (digest, id') ∈ ids' ∧ id <+: id' := by
  obtain ⟨lengths, heq, hends⟩ := collisionSafeIds_eq hstart hleast hmost hhexes
  have hfst : ((uniqueDigests hexes).map fun digest => (digest, start ++ digest.take (lengths digest))).map
      Prod.fst = uniqueDigests hexes := by
    rw [List.map_map]
    exact List.map_id _
  refine ⟨_, heq, ?_, ?_, ?_, ?_, ?_, ?_⟩
  · rw [hfst]
    exact nodup_uniqueDigests
  · rw [hfst]
    exact fun digest => mem_uniqueDigests
  · intro digest id hid
    obtain ⟨_, hmem, hpair⟩ := List.mem_map.mp hid
    cases hpair
    exact ⟨lengths digest, (hends digest hmem).least, rfl⟩
  · intro digest id other id' hid hid' hne
    obtain ⟨_, hmem, hpair⟩ := List.mem_map.mp hid
    cases hpair
    obtain ⟨_, hmem', hpair⟩ := List.mem_map.mp hid'
    cases hpair
    have hapart : ¬ start ++ digest.take (lengths digest) <+: start ++ other.take (lengths other) := by
      rw [List.prefix_append_right_inj]
      intro hbegins
      -- the other digest has the first part at which this one is alone
      refine hne (Eq.symm ((hends digest hmem).alone other hmem' ?_))
      have hpart := List.prefix_iff_eq_take.mp (hbegins.trans (List.take_prefix _ _))
      have hlength : (digest.take (lengths digest)).length = lengths digest := by
        rw [List.length_take, length_of_hexes hhexes digest (mem_uniqueDigests.mp hmem)]
        refine min_eq_left ((hends digest hmem).le hmost (alone_whole ?_ hmem (Nat.le_refl _)))
        exact fun digest hmem => length_of_hexes hhexes digest (mem_uniqueDigests.mp hmem)
      rw [hlength] at hpart
      exact hpart.symm
    exact ⟨fun hsame => hapart (hsame ▸ List.prefix_rfl), hapart⟩
  · intro digests' hexes' hhexes' hsame
    unfold collisionSafeIds
    rw [hhexes, hhexes']
    dsimp only
    rw [uniqueDigests_congr hsame]
  · intro digests' hexes' ids' hhexes' hsubset heq' digest id hid
    obtain ⟨lengths', hids', hends'⟩ := collisionSafeIds_eq hstart hleast hmost hhexes'
    rw [hids'] at heq'
    cases heq'
    obtain ⟨_, hmem, hpair⟩ := List.mem_map.mp hid
    cases hpair
    have hmem' : digest ∈ uniqueDigests hexes' := mem_uniqueDigests.mpr (hsubset (mem_uniqueDigests.mp hmem))
    refine ⟨_, List.mem_map_of_mem hmem', (List.prefix_append_right_inj _).mpr ?_⟩
    -- who is alone among more digests is so among fewer
    have halone : Alone (uniqueDigests hexes) (lengths' digest) digest := fun other hother =>
      (hends' digest hmem').alone other (mem_uniqueDigests.mpr (hsubset (mem_uniqueDigests.mp hother)))
    exact List.take_prefix_take_left ((hends digest hmem).le (hends' digest hmem').least halone)

/-- Two digests with the same first digit. -/
theorem collisionSafeIds_sound_pair :
    ∃ ids, collisionSafeIds [js "sha256:" ++ List.replicate 64 0x61, 0x61 :: List.replicate 63 0x62] (js "c-") 1
        = some (.ok ids) ∧ (ids.map Prod.fst).Nodup := by
  obtain ⟨ids, hids, hnodup, -⟩ := collisionSafeIds_sound
    [js "sha256:" ++ List.replicate 64 0x61, 0x61 :: List.replicate 63 0x62]
    [List.replicate 64 0x61, 0x61 :: List.replicate 63 0x62] (js "c-") 1 (by decide) (by decide) (by decide)
    (by decide +kernel)
  exact ⟨ids, hids, hnodup⟩

end Ids

end WorldModel

end SingularityFlow
