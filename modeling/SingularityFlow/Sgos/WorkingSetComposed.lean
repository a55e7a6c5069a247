/-
# What composition makes

A composed working set is the record of a placement of its sources: each is
there once, as an entry or as an omission, and the order in which they were
given is not seen.  The validator has accepted it.  For its budget a
composition is refused only if even the record of nothing but omissions is
too long; no check of the validator gives that refusal (`Spares`).
-/
import SingularityFlow.Sgos.WorkingSetRefusals
import SingularityFlow.Sgos.WorkingSetRuns

namespace SingularityFlow

open Ecma

namespace Sgos

variable {scanText : Text → Text → List Text} {header : WorkingSetHeader}

/-! ## Sources that are accepted -/

theorem requireString_eq_ok_iff {value label : Text} :
    requireString value label = .ok () ↔ value ≠ [] := failIf_eq_ok_iff

theorem requireDigest_eq_ok_iff {value label : Text} :
    requireDigest value label = .ok () ↔ isSha256Digest value = true := by
  rw [requireDigest, failIf_eq_ok_iff, Bool.not_eq_false]

/-- **What an accepted source is**: checked, and a copy of what was given. -/
theorem of_sourceEntry {value : SourceValue} {priority : WorkingSetPriority} {source : Source}
    (h : sourceEntry scanText value priority = .ok source) :
    source.Checked scanText ∧ source.priority = priority ∧ source.ref = value.ref
      ∧ (source.forcedOmission = none → cloneJson (js "$") value.payload = .ok source.payload) := by
  obtain ⟨ref, href, h⟩ := bind_eq_ok_iff.mp h
  obtain ⟨payload, hclone, h⟩ := bind_eq_ok_iff.mp h
  obtain ⟨_, hnamed, h⟩ := bind_eq_ok_iff.mp h
  obtain ⟨_, hhandle, h⟩ := bind_eq_ok_iff.mp h
  obtain ⟨_, hreference, href⟩ := bind_eq_ok_iff.mp href
  obtain ⟨_, hsealed, href⟩ := bind_eq_ok_iff.mp href
  obtain rfl := Except.ok.inj href
  have hsame : value.expansionHandle = value.ref.expansionHandle :=
    not_not.mp (failIf_eq_ok_iff.mp hhandle)
  have hhash := not_not.mp (failIf_eq_ok_iff.mp hsealed)
  split at h
  · next hisolated =>
    obtain rfl := Except.ok.inj h
    exact ⟨⟨hreference, hhash, hsame, requireString_eq_ok_iff.mp hnamed, (if_pos hisolated).symm,
      nofun, nofun⟩, rfl, rfl, nofun⟩
  · next hopen =>
    obtain ⟨_, hscanned, h⟩ := bind_eq_ok_iff.mp h
    obtain ⟨bytes, hbytes, h⟩ := bind_eq_ok_iff.mp h
    obtain ⟨_, hbound, h⟩ := bind_eq_ok_iff.mp h
    obtain rfl := Except.ok.inj h
    have hbinding := failIf_eq_ok_iff.mp hbound
    rw [not_or, not_not, not_not] at hbinding
    exact ⟨⟨hreference, hhash, hsame, requireString_eq_ok_iff.mp hnamed, (if_neg hopen).symm,
      fun _ => hscanned, fun _ => ⟨bytes, hbytes, hbinding.1, hbinding.2⟩⟩, rfl, rfl,
      fun _ => hclone⟩

theorem mem_checkedSources {sources : WorkingSetSources} {checked : List Source}
    (h : checkedSources scanText sources = .ok checked) {source : Source} (hmem : source ∈ checked) :
    ∃ priority, ∃ value ∈ sources priority, sourceEntry scanText value priority = .ok source := by
  have hlist := sequence_eq_ok h
  have hsource : Except.ok source ∈ checked.map (Except.ok (ε := Failure)) :=
    List.mem_map_of_mem hmem
  rw [← hlist] at hsource
  obtain ⟨priority, -, hvalue⟩ := List.mem_flatMap.mp hsource
  obtain ⟨value, hgiven, hentry⟩ := List.mem_map.mp hvalue
  exact ⟨priority, value, hgiven, hentry⟩

/-! ## Repeated sources -/

/-- Neighbours in order whose identities differ have increasing ranks. -/
theorem isChain_of_refuseRepeats : ∀ {ordered : List Source}, refuseRepeats ordered = .ok () →
    (ordered.IsChain fun left right => rank left.place ≤ rank right.place) →
      ordered.IsChain fun left right => rank left.place < rank right.place
  | [], _, _ => .nil
  | [_], _, _ => .singleton _
  | left :: right :: rest, h, hle => by
      rw [refuseRepeats] at h
      obtain ⟨hhead, htail⟩ := List.isChain_cons_cons.mp hle
      split at h
      · cases h
      · next hne =>
        refine List.isChain_cons_cons.mpr ⟨lt_of_le_of_ne hhead fun heq => hne ?_,
          isChain_of_refuseRepeats h htail⟩
        exact congrArg Prod.snd (rank_injective heq)

/-- Sorted sources that do not repeat increase. -/
theorem increasing_of_refuseRepeats {checked : List Source}
    (h : refuseRepeats (checked.insertionSort LeSource) = .ok ()) :
    Increasing (checked.insertionSort LeSource) := by
  have hsorted := pairwise_insertionSort_rank (f := fun source => rank source.place)
    (fun _ _ => leSource_iff) checked
  have hlt := isChain_of_refuseRepeats h (List.pairwise_map.mp hsorted).isChain
  have htrans : Trans (fun left right : Source => rank left.place < rank right.place)
      (fun left right : Source => rank left.place < rank right.place)
      (fun left right : Source => rank left.place < rank right.place) := ⟨lt_trans⟩
  exact List.pairwise_map.mpr hlt.pairwise

/-- Only the identities are looked at. -/
theorem refuseRepeats_congr {ordered : List Source} : ∀ {ordered' : List Source},
    ordered.map Source.identity = ordered'.map Source.identity →
      refuseRepeats ordered = refuseRepeats ordered' := by
  induction ordered with
  | nil =>
      intro ordered' h
      rw [List.map_eq_nil_iff.mp h.symm]
  | cons left rest ih =>
      intro ordered' h
      obtain ⟨left', rest', rfl, hleft, hrest⟩ := List.map_eq_cons_iff.mp h.symm
      have hbehind := ih hrest.symm
      cases rest with
      | nil =>
          rw [List.map_eq_nil_iff.mp hrest]
          rfl
      | cons right rest =>
          obtain ⟨right', rest', rfl, hright, -⟩ := List.map_eq_cons_iff.mp hrest
          rw [refuseRepeats, refuseRepeats, hleft, hright, hbehind]

/-! ## The order in which sources are given -/

theorem checkedSources_perm {sources sources' : WorkingSetSources} {checked : List Source}
    (h : checkedSources scanText sources = .ok checked)
    (hperm : ∀ priority, (sources priority).Perm (sources' priority)) :
    ∃ checked', checkedSources scanText sources' = .ok checked' ∧ checked.Perm checked' := by
  have hlist := sequence_eq_ok h
  have hsame : (checked.map (Except.ok (ε := Failure))).Perm
      (workingSetPriorities.flatMap fun priority =>
        (sources' priority).map fun value => sourceEntry scanText value priority) := by
    rw [← hlist]
    exact List.Perm.flatMap_left _ fun priority _ => (hperm priority).map _
  obtain ⟨checked', hchecked'⟩ := exists_map_ok fun x hx => by
    obtain ⟨source, -, hsource⟩ := List.mem_map.mp (hsame.mem_iff.mpr hx)
    exact ⟨source, hsource.symm⟩
  rw [hchecked'] at hsame
  refine ⟨checked', ?_, (List.map_perm_map_iff fun _ _ => Except.ok.inj).mp hsame⟩
  rw [checkedSources, hchecked', sequence_ok]

/-- What the validator returns is what it was given. -/
theorem validated_eq {record validated : WorkingSet} {checkpoint : Option Text}
    (h : validateSgosWorkingSet scanText record checkpoint = .ok validated) : validated = record := by
  iterate 4 obtain ⟨_, _, h⟩ := bind_eq_ok_iff.mp h
  exact (Except.ok.inj h).symm

theorem composeOrdered_repeats {ordered : List Source} {failure : Failure}
    (h : refuseRepeats ordered = .error failure) :
    composeOrdered scanText header ordered = .error failure := by
  rw [composeOrdered, h]
  rfl

/-- **The order of the sources is not seen.** -/
theorem composeOrdered_perm {checked checked' : List Source} (h : checked.Perm checked') :
    composeOrdered scanText header (checked.insertionSort LeSource)
      = composeOrdered scanText header (checked'.insertionSort LeSource) := by
  have hranks := map_insertionSort_perm (f := fun source : Source => rank source.place)
    (fun _ _ => leSource_iff) h
  have hplaces : (checked.insertionSort LeSource).map Source.place
      = (checked'.insertionSort LeSource).map Source.place := by
    refine List.map_injective_iff.mpr rank_injective ?_
    rw [List.map_map, List.map_map]
    exact hranks
  have hidentities : (checked.insertionSort LeSource).map Source.identity
      = (checked'.insertionSort LeSource).map Source.identity := by
    have hmap := congrArg (List.map Prod.snd) hplaces
    rwa [List.map_map, List.map_map] at hmap
  have hrepeats := refuseRepeats_congr hidentities
  cases hrefused : refuseRepeats (checked'.insertionSort LeSource) with
  | error failure =>
      rw [hrefused] at hrepeats
      rw [composeOrdered_repeats hrepeats, composeOrdered_repeats hrefused]
  | ok u =>
      have hsame : checked.insertionSort LeSource = checked'.insertionSort LeSource :=
        insertionSort_eq_of_perm (f := fun source : Source => rank source.place)
          (fun _ _ => leSource_iff) (h.trans (List.perm_insertionSort LeSource checked').symm)
          (increasing_of_refuseRepeats hrefused)
      rw [hsame]

/-! ## What is composed -/

/-- The record in which every source is omitted. -/
def allOmitted (header : WorkingSetHeader) (ordered : List Source) : WorkingSetCore :=
  ⟨header, 0, [], ordered.map Source.omitted⟩

/-- What a composed record is, of the sources as they were given and as they were checked. -/
structure Composed (scanText : Text → Text → List Text) (header : WorkingSetHeader)
    (sources : WorkingSetSources) (checked : List Source) (record : WorkingSet) : Prop where
  /-- The validator accepts it. -/
  accepted : validateSgosWorkingSet scanText record none = .ok record
  header_eq : record.core.header = header
  distinct : (checked.map Source.place).Nodup
  /-- Each source is there once, as an entry or as an omission. -/
  once : ∃ placed : Placement, (placed.map Prod.fst).Perm checked
    ∧ record.core.entries = placed.kept.map Source.entry
    ∧ record.core.omissions = placed.left.map Source.omitted
  /-- An entry has the payload that was given. -/
  exact : ∀ entry ∈ record.core.entries, ∃ value ∈ sources entry.priority,
    value.ref = entry.ref ∧ cloneJson (js "$") value.payload = .ok entry.payload
  isolated : ∀ entry ∈ record.core.entries, ¬ entry.ref.isolated
  bounded : record.bytes ≤ header.maximumBytes

/-- How a composition ends. -/
def CompositionOutcome (scanText : Text → Text → List Text) (header : WorkingSetHeader)
    (sources : WorkingSetSources) (checked : List Source) : Except Failure WorkingSet → Prop
  | .ok record => Composed scanText header sources checked record
  | .error failure => failure = budgetTooSmall →
      header.maximumBytes < (allOmitted header (checked.insertionSort LeSource)).sealedBytes

/-- A placement that keeps nothing omits every source. -/
theorem Placement.core_of_kept_nil {placed : Placement} (h : placed.kept = []) :
    placed.core header = allOmitted header (placed.map Prod.fst) := by
  have hnone : ∀ p ∈ placed, (!p.2) = true := by
    intro p hp
    cases hb : p.2 with
    | false => rfl
    | true =>
        have hmem : p.1 ∈ placed.kept := List.mem_map_of_mem (List.mem_filter.mpr ⟨hp, hb⟩)
        rw [h] at hmem
        cases hmem
  have hleft : placed.left = placed.map Prod.fst := by
    rw [Placement.left, List.filter_eq_self.mpr hnone]
  rw [Placement.core, allOmitted, h, hleft]
  rfl

/-- A header that is fit begins a record without sources. -/
theorem base_of_workingSetBase {base : WorkingSetCore} (h : workingSetBase header = .ok base) :
    base = ⟨header, 0, [], []⟩ := by
  iterate 6 obtain ⟨-, -, h⟩ := bind_eq_ok_iff.mp h
  exact (Except.ok.inj h).symm

theorem Placement.free_of_kept {placed : Placement} (h : placed.Lawful) :
    ∀ source ∈ placed.kept, source.forcedOmission = none := by
  intro source hsource
  obtain ⟨p, hp, rfl⟩ := List.mem_map.mp hsource
  exact h p (List.mem_filter.mp hp).1 (List.mem_filter.mp hp).2

/-- The two loops end at a placement of all sources, which fits or keeps nothing. -/
theorem exists_placement (header : WorkingSetHeader) {ordered : List Source}
    (hchecked : ∀ source ∈ ordered, source.Checked scanText) (horder : Increasing ordered) :
    ∃ placed : Placement,
      evictEntries (ordered.foldl admitSource ⟨header, 0, [], []⟩) = placed.core header
      ∧ placed.map Prod.fst = ordered ∧ placed.Lawful
      ∧ ((placed.core header).sealedBytes ≤ header.maximumBytes ∨ placed.kept = []) := by
  obtain ⟨first, hadmit, hfirst, hlawful⟩ := foldl_admitSource header [] ordered
  obtain ⟨placed, hevict, hsame, hlawful', hend⟩ := evictEntries_core header _ first rfl hlawful
    (hfirst ▸ horder) fun p hp => (hchecked p.1 (hfirst ▸ List.mem_map_of_mem hp)).handle
  refine ⟨placed, ?_, hsame.trans hfirst, hlawful', hend⟩
  rw [← hevict]
  exact congrArg evictEntries hadmit

theorem distinct_of_increasing {checked ordered : List Source} (hperm : ordered.Perm checked)
    (h : Increasing ordered) : (checked.map Source.place).Nodup := by
  refine (hperm.map Source.place).nodup_iff.mp (List.Nodup.of_map rank ?_)
  rw [List.map_map]
  exact h.imp ne_of_lt

section Kept

variable {sources : WorkingSetSources} {kept : List Source}
  (h : ∀ source ∈ kept, source.forcedOmission = none ∧ ∃ priority, ∃ value ∈ sources priority,
    sourceEntry scanText value priority = .ok source)
include h

theorem entries_exact : ∀ entry ∈ kept.map Source.entry, ∃ value ∈ sources entry.priority,
    value.ref = entry.ref ∧ cloneJson (js "$") value.payload = .ok entry.payload := by
  intro entry hentry
  obtain ⟨source, hsource, rfl⟩ := List.mem_map.mp hentry
  obtain ⟨hfree, priority, value, hgiven, hchecked⟩ := h source hsource
  obtain ⟨-, hpriority, href, hpayload⟩ := of_sourceEntry hchecked
  subst hpriority
  exact ⟨value, hgiven, href.symm, hpayload hfree⟩

theorem entries_open : ∀ entry ∈ kept.map Source.entry, ¬ entry.ref.isolated := by
  intro entry hentry
  obtain ⟨source, hsource, rfl⟩ := List.mem_map.mp hentry
  obtain ⟨hfree, priority, value, -, hchecked⟩ := h source hsource
  intro (hisolated : source.ref.isolated)
  have hforced := (of_sourceEntry hchecked).1.isolated
  rw [if_pos hisolated, hfree] at hforced
  cases hforced

end Kept

/-- **What is made of sources in their order.** -/
theorem composeOrdered_outcome {sources : WorkingSetSources} {checked : List Source}
    (hsources : checkedSources scanText sources = .ok checked) :
    CompositionOutcome scanText header sources checked
      (composeOrdered scanText header (checked.insertionSort LeSource)) := by
  have hperm := List.perm_insertionSort LeSource checked
  have hgiven := fun source (h : source ∈ checked.insertionSort LeSource) =>
    mem_checkedSources hsources (hperm.mem_iff.mp h)
  have hchecked : ∀ source ∈ checked.insertionSort LeSource, source.Checked scanText := by
    intro source hsource
    obtain ⟨priority, value, -, hentry⟩ := hgiven source hsource
    exact (of_sourceEntry hentry).1
  cases hresult : composeOrdered scanText header (checked.insertionSort LeSource) with
  | error failure =>
      rintro rfl
      obtain h | ⟨_, hrepeats, h⟩ := bind_eq_error hresult
      · exact absurd h (spares_refuseRepeats _)
      obtain h | ⟨base, hheader, h⟩ := bind_eq_error h
      · exact absurd h spares_workingSetBase
      obtain rfl := base_of_workingSetBase hheader
      obtain ⟨placed, hloops, hplaced, -, hend⟩ :=
        exists_placement header hchecked (increasing_of_refuseRepeats hrepeats)
      rw [hloops] at h
      obtain h | ⟨_, -, h⟩ := bind_eq_error h
      · have hlong : header.maximumBytes < (placed.core header).sealedBytes := by
          by_contra hfits
          rw [failIf, if_neg hfits] at h
          cases h
        rw [← hplaced, ← Placement.core_of_kept_nil (hend.resolve_left (Nat.not_le.mpr hlong))]
        exact hlong
      · obtain h | ⟨_, -, h⟩ := bind_eq_error h
        · exact absurd h (spares_validateSgosWorkingSet _ _)
        · cases h
  | ok record =>
      obtain ⟨_, hrepeats, h⟩ := bind_eq_ok_iff.mp hresult
      obtain ⟨base, hheader, h⟩ := bind_eq_ok_iff.mp h
      obtain rfl := base_of_workingSetBase hheader
      have horder := increasing_of_refuseRepeats hrepeats
      obtain ⟨placed, hloops, hplaced, hlawful, -⟩ :=
        exists_placement header hchecked horder
      rw [hloops] at h
      obtain ⟨_, hfits, h⟩ := bind_eq_ok_iff.mp h
      obtain ⟨validated, hvalid, h⟩ := bind_eq_ok_iff.mp h
      obtain rfl := Except.ok.inj h
      have hentry : ∀ source ∈ placed.kept, source.forcedOmission = none
          ∧ ∃ priority, ∃ value ∈ sources priority,
            sourceEntry scanText value priority = .ok source := fun source h =>
        ⟨Placement.free_of_kept hlawful source h,
          hgiven source (hplaced ▸ (Placement.kept_sublist placed).subset h)⟩
      exact {
        accepted := validated_eq hvalid ▸ hvalid
        header_eq := rfl
        distinct := distinct_of_increasing hperm horder
        once := ⟨placed, hplaced ▸ hperm, rfl, rfl⟩
        exact := entries_exact hentry
        isolated := entries_open hentry
        bounded := Nat.not_lt.mp (failIf_eq_ok_iff.mp hfits) }

/-- **Composition is complete, bounded and does not see the order of its sources.**
Of at most 256 accepted sources and with a ceiling that is permitted, what is
composed is accepted by the validator, has every source once, as an entry
with its payload or as an omission, has nothing secret or restricted as an
entry and fits the ceiling.  For its budget a composition is refused only if
the record of nothing but omissions is too long.  The order of the sources
within a priority changes nothing. -/
theorem composeSgosWorkingSet_exact (scanText : Text → Text → List Text)
    (header : WorkingSetHeader) (sources : WorkingSetSources) (checked : List Source)
    (hpermitted : Permitted header.maximumBytes)
    (hsources : checkedSources scanText sources = .ok checked)
    (hitems : checked.length ≤ maximumWorkingSetItems) :
    CompositionOutcome scanText header sources checked (composeSgosWorkingSet scanText header sources)
      ∧ ∀ sources' : WorkingSetSources, (∀ priority, (sources priority).Perm (sources' priority)) →
        composeSgosWorkingSet scanText header sources'
          = composeSgosWorkingSet scanText header sources := by
  have hcompose : ∀ {given : WorkingSetSources} {checked : List Source},
      checkedSources scanText given = .ok checked → checked.length ≤ maximumWorkingSetItems →
        composeSgosWorkingSet scanText header given
          = composeOrdered scanText header (checked.insertionSort LeSource) := by
    intro given checked hgiven hitems
    refine (bind_of_ok (a := ()) (if_neg (not_not.mpr hpermitted))).trans ?_
    exact (bind_of_ok hgiven).trans (bind_of_ok (a := ()) (if_neg (Nat.not_lt.mpr hitems)))
  rw [hcompose hsources hitems]
  refine ⟨composeOrdered_outcome hsources, fun sources' hperm => ?_⟩
  obtain ⟨checked', hchecked', hsame⟩ := checkedSources_perm hsources hperm
  rw [hcompose hchecked' (hsame.length_eq ▸ hitems)]
  exact (composeOrdered_perm hsame).symm

/-! ## A working set of two sources -/

theorem isSha256Digest_sha256 (bytes : Bytes) : isSha256Digest (sha256Bytes bytes) = true := by
  have hhex : ∀ d < 16, Git.isLowerHex (hexUnit d) = true := by decide
  have hdigest : ∀ u ∈ sha256Hex bytes, Git.isLowerHex u = true := by
    intro u hu
    obtain ⟨b, -, hu⟩ := List.mem_flatMap.mp hu
    have hb := b.toNat_lt
    simp only [List.mem_cons, List.not_mem_nil, or_false] at hu
    rcases hu with rfl | rfl
    · exact hhex _ (by omega)
    · exact hhex _ (by omega)
  have hdrop : (sha256Bytes bytes).drop 7 = sha256Hex bytes := List.drop_left' rfl
  have hlength : (sha256Hex bytes).length = 64 := by
    rw [sha256Hex, length_hexText, length_digest]
  rw [isSha256Digest, hdrop, hlength, List.all_eq_true.mpr hdigest, sha256Bytes,
    List.isPrefixOf_iff_prefix.mpr (List.prefix_append _ _)]
  rfl

/-- A reference to an object of a schema, sealed. -/
def sampleRef (sensitivity : Sensitivity) (payload : Text) : MemoryRef :=
  let ref : MemoryRef := {
    address := js "sfref:v1:law"
    memoryClass := .program
    object := ⟨js "law", 1, sha256Bytes (textEncode payload), (textEncode payload).length⟩
    authority := .programAuthority
    sensitivity
    storeId := js "process"
    dependencies := []
    expansionHandle := js "law"
    memoryRefSha256 := [] }
  { ref with memoryRefSha256 := sha256Record (.obj ref.core) }

def sampleSource (sensitivity : Sensitivity) (payload : Text) : SourceValue :=
  ⟨sampleRef sensitivity payload, .str payload, js "law"⟩

/-- A law that is shown, and one that is restricted. -/
def sampleSources : WorkingSetSources
  | .pinnedLaw => [sampleSource .internal (js "review"), sampleSource .restricted (js "audit")]
  | _ => []

def sampleSha : Text := js "sha256:" ++ List.replicate 64 0x30

def sampleHeader : WorkingSetHeader :=
  ⟨js "P-1", js "T-1", sampleSha, sampleSha, sampleSha, sampleSha, 4096⟩

theorem checkMemoryRef_sample (sensitivity : Sensitivity) {payload : Text}
    (h : (textEncode payload).length ≤ maximumSliceBytes) :
    validateSgosMemoryRef (sampleRef sensitivity payload)
      = .ok (sampleRef sensitivity payload) := by
  have hcheck : checkMemoryRef (sampleRef sensitivity payload) = .ok () := by
    refine bind_eq_ok_iff.mpr ⟨(), rfl, bind_eq_ok_iff.mpr ⟨(), rfl, bind_eq_ok_iff.mpr ⟨(), rfl, ?_⟩⟩⟩
    refine bind_eq_ok_iff.mpr ⟨(), rfl, bind_eq_ok_iff.mpr
      ⟨(), requireDigest_eq_ok_iff.mpr (isSha256Digest_sha256 _), ?_⟩⟩
    refine bind_eq_ok_iff.mpr ⟨(), failIf_eq_ok_iff.mpr (Nat.not_lt.mpr h), ?_⟩
    refine bind_eq_ok_iff.mpr ⟨(), rfl, bind_eq_ok_iff.mpr ⟨(), rfl, bind_eq_ok_iff.mpr ⟨(), rfl, ?_⟩⟩⟩
    refine bind_eq_ok_iff.mpr ⟨(), rfl, bind_eq_ok_iff.mpr
      ⟨(), requireDigest_eq_ok_iff.mpr (isSha256Digest_sha256 _), rfl⟩⟩
  exact bind_eq_ok_iff.mpr ⟨(), hcheck, bind_eq_ok_iff.mpr
    ⟨(), failIf_eq_ok_iff.mpr (not_not.mpr rfl), rfl⟩⟩

/-- The sources as they are checked: the restricted one without its payload. -/
def sampleChecked : List Source :=
  [⟨.pinnedLaw, sampleRef .internal (js "review"), .str (js "review"), js "law", none⟩,
    ⟨.pinnedLaw, sampleRef .restricted (js "audit"), .null, js "law", some .secretIsolated⟩]

theorem checkedSources_sample :
    checkedSources (fun _ _ => []) sampleSources = .ok sampleChecked := by
  have hshown : sourceEntry (fun _ _ => []) (sampleSource .internal (js "review")) .pinnedLaw
      = .ok ⟨.pinnedLaw, sampleRef .internal (js "review"), .str (js "review"), js "law", none⟩ := by
    refine bind_eq_ok_iff.mpr ⟨_, checkMemoryRef_sample .internal (by decide +kernel), ?_⟩
    refine bind_eq_ok_iff.mpr ⟨_, rfl, bind_eq_ok_iff.mpr ⟨(), rfl, bind_eq_ok_iff.mpr ⟨(), rfl, ?_⟩⟩⟩
    rw [if_neg (by rintro (h | h) <;> cases h)]
    refine bind_eq_ok_iff.mpr ⟨(), rfl, bind_eq_ok_iff.mpr ⟨_, rfl, bind_eq_ok_iff.mpr ⟨(), ?_, rfl⟩⟩⟩
    exact failIf_eq_ok_iff.mpr (by rintro (h | h) <;> exact h rfl)
  have hhidden : sourceEntry (fun _ _ => []) (sampleSource .restricted (js "audit")) .pinnedLaw
      = .ok ⟨.pinnedLaw, sampleRef .restricted (js "audit"), .null, js "law",
          some .secretIsolated⟩ := by
    refine bind_eq_ok_iff.mpr ⟨_, checkMemoryRef_sample .restricted (by decide +kernel), ?_⟩
    refine bind_eq_ok_iff.mpr ⟨_, rfl, bind_eq_ok_iff.mpr ⟨(), rfl, bind_eq_ok_iff.mpr ⟨(), rfl, ?_⟩⟩⟩
    rw [if_pos (.inr rfl)]
    rfl
  show sequence [sourceEntry (fun _ _ => []) (sampleSource .internal (js "review")) .pinnedLaw,
    sourceEntry (fun _ _ => []) (sampleSource .restricted (js "audit")) .pinnedLaw] = _
  rw [hshown, hhidden]
  rfl

/-- The two sources are placed, or refused for their budget, alike in either order. -/
theorem composeSgosWorkingSet_exact_sample :
    CompositionOutcome (fun _ _ => []) sampleHeader sampleSources sampleChecked
        (composeSgosWorkingSet (fun _ _ => []) sampleHeader sampleSources)
      ∧ composeSgosWorkingSet (fun _ _ => []) sampleHeader
          (fun priority => (sampleSources priority).reverse)
        = composeSgosWorkingSet (fun _ _ => []) sampleHeader sampleSources := by
  refine And.imp_right (fun horder => ?_) (composeSgosWorkingSet_exact (fun _ _ => []) sampleHeader
    sampleSources sampleChecked (by decide) checkedSources_sample (by decide))
  exact horder _ fun _ => (List.reverse_perm _).symm

end Sgos

end SingularityFlow
