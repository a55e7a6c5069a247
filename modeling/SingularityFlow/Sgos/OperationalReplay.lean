/-
# The lineage of an operational store

What a store takes is an event that a replay accepts behind its lineage, and the
state that the replay finds there (`advance_of_transact`).  Entries that a replay
has found are within the limits of every change, so the changes that lead back to
them are accepted as they are (`normalizedChanges_changesBack`), and lead there
(`foldl_changesBack`).
-/
import SingularityFlow.Sgos.OperationalStore

namespace SingularityFlow

open Ecma

namespace Sgos

/-! ## Changes -/

section Changes

variable {α D : Type} {codec : Codec α D}

/-- The checks of a change pass. -/
def Change.Allowed (codec : Codec α D) (entries : Entries α) (change : Change α) : Prop :=
  isKey change.key = true ∧
    match change with
    | .put _ value => codec.valueBytes value ≤ maximumBytes
    | .delete key => entries.lookup key ≠ none

theorem normalizedChange_eq_ok {entries : Entries α} {index : Nat} {change change' : Change α} :
    normalizedChange codec entries index change = .ok change' ↔
      change.Allowed codec entries ∧ change' = change := by
  unfold normalizedChange Change.Allowed
  split
  · next hkey => simp [hkey]
  · next hkey =>
      rw [Bool.not_eq_false] at hkey
      cases change with
      | put key value =>
          dsimp only
          split
          · next hbytes => simp [Nat.not_le.mpr hbytes]
          · next hbytes => simp [hkey, Nat.not_lt.mp hbytes, eq_comm]
      | delete key =>
          dsimp only
          split
          · next hmissing => simp [hmissing]
          · next hfound => simp [hkey, hfound, eq_comm]

/-- Checks that give back what they check. -/
theorem sequence_checked {β : Type} {P : β → Prop} (l : List β) : ∀ {result : List β}
    {check : Nat → β → Except Failure β}, (∀ index b b', check index b = .ok b' ↔ P b ∧ b' = b) →
      (sequence (l.mapIdx check) = .ok result ↔ (∀ b ∈ l, P b) ∧ result = l) := by
  induction l with
  | nil => simp [sequence, eq_comm]
  | cons b l ih =>
      intro result check hcheck
      rw [List.mapIdx_cons]
      cases hb : check 0 b with
      | error failure =>
          have hnot : ¬ P b := fun h => by
            rw [(hcheck 0 b b).mpr ⟨h, rfl⟩] at hb
            cases hb
          simp [sequence, hnot]
      | ok b' =>
          obtain ⟨hp, rfl⟩ := (hcheck 0 b b').mp hb
          have hrest : ∀ {rest : List β}, sequence (l.mapIdx fun index => check (index + 1)) = .ok rest ↔
              (∀ b ∈ l, P b) ∧ rest = l := ih fun index => hcheck (index + 1)
          rw [sequence]
          split
          · next failure heq =>
              refine iff_of_false (fun heq => by cases heq) fun hp => ?_
              rw [hrest.mpr ⟨fun b hb => hp.1 b (List.mem_cons_of_mem _ hb), rfl⟩] at heq
              cases heq
          · next rest heq =>
              obtain ⟨hall, rfl⟩ := hrest.mp heq
              rw [Except.ok.injEq, eq_comm]
              exact (and_iff_right (List.forall_mem_cons.mpr ⟨hp, hall⟩)).symm

/-- What the changes of a transaction have to be. -/
theorem normalizedChanges_eq_ok {entries : Entries α} {changes result : List (Change α)} :
    normalizedChanges codec entries changes = .ok result ↔
      (changes ≠ [] ∧ changes.length ≤ maximumChanges) ∧ (∀ change ∈ changes, change.Allowed codec entries) ∧
        result = changes.insertionSort (fun left right => LeUnits left.key right.key) ∧
        repeatedKey result = none := by
  unfold normalizedChanges
  split
  · next hcount =>
      refine iff_of_false nofun fun ⟨⟨hsome, hmost⟩, _⟩ => ?_
      exact hcount.elim hsome (Nat.not_lt.mpr hmost)
  · next hcount =>
      obtain ⟨hsome, hmost⟩ := not_or.mp hcount
      rw [and_iff_right ⟨hsome, Nat.not_lt.mp hmost⟩]
      have hchecks : ∀ {result : List (Change α)},
          sequence (changes.mapIdx (normalizedChange codec entries)) = .ok result ↔
            (∀ change ∈ changes, change.Allowed codec entries) ∧ result = changes :=
        sequence_checked changes fun _ _ _ => normalizedChange_eq_ok
      split
      · next failure heq =>
          refine iff_of_false nofun fun ⟨hall, _⟩ => ?_
          rw [hchecks.mpr ⟨hall, rfl⟩] at heq
          cases heq
      · next checked heq =>
          obtain ⟨hall, rfl⟩ := hchecks.mp heq
          rw [and_iff_right hall]
          dsimp only
          split
          · next key hkey =>
              refine iff_of_false nofun fun ⟨hresult, hnone⟩ => ?_
              rw [← hresult, hnone] at hkey
              cases hkey
          · next hnone =>
              rw [Except.ok.injEq]
              refine ⟨fun h => ⟨h.symm, h ▸ hnone⟩, fun h => h.1.symm⟩

theorem repeatedKey_of_pairwise {changes : List (Change α)}
    (h : changes.Pairwise fun left right => left.key ≠ right.key) : repeatedKey changes = none := by
  induction changes with
  | nil => rfl
  | cons first changes ih =>
      obtain ⟨hfirst, hrest⟩ := List.pairwise_cons.mp h
      cases changes with
      | nil => rfl
      | cons second rest =>
          rw [repeatedKey, if_neg (hfirst second List.mem_cons_self)]
          exact ih hrest

theorem sorted_byKey (changes : List (Change α)) :
    (changes.insertionSort fun left right => LeUnits left.key right.key).Pairwise
      fun left right => LeUnits left.key right.key := by
  have htotal : Std.Total fun left right : Change α => LeUnits left.key right.key :=
    ⟨fun left right => leUnits_total left.key right.key⟩
  have htrans : IsTrans (Change α) fun left right => LeUnits left.key right.key :=
    ⟨fun _ _ _ => leUnits_trans⟩
  exact List.pairwise_insertionSort _ changes

/-- Changes that pass the checks, in the order of their keys. -/
theorem normalizedChanges_sorted {entries : Entries α} {changes : List (Change α)}
    (hsome : changes ≠ []) (hmost : changes.length ≤ maximumChanges)
    (hallowed : ∀ change ∈ changes, change.Allowed codec entries)
    (hsorted : changes.Pairwise fun left right => LeUnits left.key right.key)
    (hkeys : repeatedKey changes = none) : normalizedChanges codec entries changes = .ok changes :=
  normalizedChanges_eq_ok.mpr ⟨⟨hsome, hmost⟩, hallowed, (hsorted.insertionSort_eq).symm, hkeys⟩

/-- What is written down of a transaction passes the checks again. -/
theorem normalizedChanges_again {entries : Entries α} {changes result : List (Change α)}
    (h : normalizedChanges codec entries changes = .ok result) :
    normalizedChanges codec entries result = .ok result := by
  obtain ⟨⟨hsome, hmost⟩, hallowed, rfl, hkeys⟩ := normalizedChanges_eq_ok.mp h
  have hperm := List.perm_insertionSort (fun left right : Change α => LeUnits left.key right.key) changes
  exact normalizedChanges_sorted (fun hnil => hsome (hnil ▸ hperm).symm.eq_nil)
    (hperm.length_eq ▸ hmost) (fun change hchange => hallowed change (hperm.mem_iff.mp hchange))
    (sorted_byKey changes) hkeys

/-! ## Entries -/

/-- Entries within the limits of every change and of a state. -/
structure Held (codec : Codec α D) (entries : Entries α) : Prop where
  keys : ∀ key value, entries.lookup key = some value → isKey key = true
  values : ∀ key value, entries.lookup key = some value → codec.valueBytes value ≤ maximumBytes
  count : entries.keys.card ≤ maximumEntries
  bytes : codec.entriesBytes entries ≤ maximumBytes

theorem applyChanges_eq_ok {entries next : Entries α} {changes : List (Change α)} :
    applyChanges codec entries changes = .ok next ↔
      next = changes.foldl applyChange entries ∧ next.keys.card ≤ maximumEntries ∧
        codec.entriesBytes next ≤ maximumBytes := by
  unfold applyChanges
  dsimp only
  split
  · next hcount =>
      exact iff_of_false nofun fun ⟨hnext, hle, _⟩ => Nat.not_le.mpr hcount (hnext ▸ hle)
  · next hcount =>
      split
      · next hbytes =>
          exact iff_of_false nofun fun ⟨hnext, _, hle⟩ => Nat.not_le.mpr hbytes (hnext ▸ hle)
      · next hbytes =>
          rw [Except.ok.injEq, eq_comm]
          refine ⟨fun h => ⟨h, ?_, ?_⟩, fun h => h.1⟩
          · exact h ▸ Nat.not_lt.mp hcount
          · exact h ▸ Nat.not_lt.mp hbytes

/-- A change leaves keys and values within the limits. -/
theorem foldl_applyChange_forall {P : Text → α → Prop} {changes : List (Change α)}
    (hchanges : ∀ key value, .put key value ∈ changes → P key value) : ∀ {entries : Entries α},
      (∀ key value, entries.lookup key = some value → P key value) →
        ∀ key value, (changes.foldl applyChange entries).lookup key = some value → P key value := by
  induction changes with
  | nil => exact fun h => h
  | cons change changes ih =>
      intro entries hentries
      refine ih (fun key value hmem => hchanges key value (List.mem_cons_of_mem _ hmem)) ?_
      intro key value hlookup
      cases change with
      | put key' value' =>
          by_cases heq : key = key'
          · subst heq
            rw [applyChange, Finmap.lookup_insert] at hlookup
            exact Option.some.inj hlookup ▸ hchanges key value' List.mem_cons_self
          · rw [applyChange, Finmap.lookup_insert_of_ne _ heq] at hlookup
            exact hentries key value hlookup
      | delete key' =>
          by_cases heq : key = key'
          · subst heq
            rw [applyChange, Finmap.lookup_erase] at hlookup
            cases hlookup
          · rw [applyChange, Finmap.lookup_erase_ne heq] at hlookup
            exact hentries key value hlookup

theorem Held.applyChanges {entries next : Entries α} (h : Held codec entries) {changes checked : List (Change α)}
    (hchecked : normalizedChanges codec entries changes = .ok checked)
    (hnext : Sgos.applyChanges codec entries checked = .ok next) : Held codec next := by
  obtain ⟨rfl, hcount, hbytes⟩ := applyChanges_eq_ok.mp hnext
  obtain ⟨-, hallowed, -, -⟩ := normalizedChanges_eq_ok.mp (normalizedChanges_again hchecked)
  exact ⟨foldl_applyChange_forall (fun key value hmem => (hallowed _ hmem).1) h.keys,
    foldl_applyChange_forall (fun key value hmem => (hallowed _ hmem).2) h.values, hcount, hbytes⟩

end Changes

/-! ## The way back -/

section Back

variable {α D : Type} [DecidableEq α] {codec : Codec α D} {current target : Entries α}

theorem key_changeBack {key : Text} {change : Change α} (h : changeBack current target key = some change) :
    change.key = key := by
  unfold changeBack at h
  split at h
  · cases h
    rfl
  · split at h
    · cases h
    · cases h
      rfl

theorem changesBack_sorted : (changesBack current target).Pairwise
    fun left right => LeUnits left.key right.key ∧ left.key ≠ right.key := by
  refine List.Pairwise.filterMap _ (fun a b hle change hchange change' hchange' => ?_)
    ((Finset.pairwise_sort _ LeUnits).and (Finset.sort_nodup _ LeUnits))
  rw [key_changeBack hchange, key_changeBack hchange']
  exact hle

theorem mem_changesBack {change : Change α} (h : change ∈ changesBack current target) :
    (change.key ∈ current ∨ change.key ∈ target) ∧ changeBack current target change.key = some change := by
  obtain ⟨key, hkey, hchange⟩ := List.mem_filterMap.mp h
  rw [Finset.mem_sort, Finset.mem_union, Finmap.mem_keys, Finmap.mem_keys] at hkey
  rw [key_changeBack hchange]
  exact ⟨hkey, hchange⟩

theorem changesBack_allowed (hcurrent : Held codec current) (htarget : Held codec target) :
    ∀ change ∈ changesBack current target, change.Allowed codec current := by
  intro change hmem
  obtain ⟨hkey, hchange⟩ := mem_changesBack hmem
  cases change with
  | put key value =>
      have hvalue : target.lookup key = some value := by
        unfold changeBack at hchange
        split at hchange
        · cases hchange
        · next found heq =>
            split at hchange
            · cases hchange
            · cases hchange
              exact heq
      exact ⟨htarget.keys key value hvalue, htarget.values key value hvalue⟩
  | delete key =>
      have hnone : target.lookup key = none := by
        unfold changeBack at hchange
        split at hchange
        · next heq => exact heq
        · split at hchange <;> cases hchange
      have hmember : key ∈ current := hkey.resolve_right (Finmap.lookup_eq_none.mp hnone)
      obtain ⟨value, hvalue⟩ := Option.isSome_iff_exists.mp (Finmap.lookup_isSome.mpr hmember)
      refine ⟨hcurrent.keys key value hvalue, fun hmissing => ?_⟩
      change current.lookup key = none at hmissing
      rw [hvalue] at hmissing
      cases hmissing

/-- The changes that lead back are accepted, and as they are. -/
theorem normalizedChanges_changesBack (hcurrent : Held codec current) (htarget : Held codec target)
    (hsome : changesBack current target ≠ []) (hmost : (changesBack current target).length ≤ maximumChanges) :
    normalizedChanges codec current (changesBack current target) = .ok (changesBack current target) :=
  normalizedChanges_sorted hsome hmost (changesBack_allowed hcurrent htarget)
    (changesBack_sorted.imp fun h => h.1) (repeatedKey_of_pairwise (changesBack_sorted.imp fun h => h.2))

/-- A key is led back alone. -/
theorem lookup_changeBack (target : Entries α) {key : Text} {entries : Entries α} (hsame : entries.lookup key = current.lookup key) :
    ((changeBack current target key).elim entries (applyChange entries)).lookup key = target.lookup key ∧
      ∀ other, other ≠ key →
        ((changeBack current target key).elim entries (applyChange entries)).lookup other
          = entries.lookup other := by
  unfold changeBack
  split
  · next hmissing =>
      exact ⟨(Finmap.lookup_erase key entries).trans hmissing.symm,
        fun other hne => Finmap.lookup_erase_ne hne⟩
  · next value hvalue =>
      split
      · next hheld => exact ⟨(hsame.trans hheld).trans hvalue.symm, fun _ _ => rfl⟩
      · exact ⟨(Finmap.lookup_insert entries).trans hvalue.symm,
          fun other hne => Finmap.lookup_insert_of_ne entries hne⟩

theorem lookup_foldl_back (key : Text) : ∀ (keys : List Text) (entries : Entries α), keys.Nodup →
    (∀ other ∈ keys, entries.lookup other = current.lookup other) →
      ((keys.filterMap (changeBack current target)).foldl applyChange entries).lookup key
        = if key ∈ keys then target.lookup key else entries.lookup key := by
  intro keys
  induction keys with
  | nil => exact fun _ _ _ => rfl
  | cons first keys ih =>
      intro entries hnodup hsame
      obtain ⟨hfirst, hnodup⟩ := List.nodup_cons.mp hnodup
      obtain ⟨hhead, hrest⟩ := List.forall_mem_cons.mp hsame
      obtain ⟨hback, hother⟩ := lookup_changeBack target hhead
      have hfold : (List.filterMap (changeBack current target) (first :: keys)).foldl applyChange entries
          = (keys.filterMap (changeBack current target)).foldl applyChange
            ((changeBack current target first).elim entries (applyChange entries)) := by
        rw [List.filterMap_cons]
        cases changeBack current target first <;> rfl
      have hkept : ∀ other ∈ keys, ((changeBack current target first).elim entries
          (applyChange entries)).lookup other = current.lookup other := fun other hmem =>
        (hother other fun heq => hfirst (heq ▸ hmem)).trans (hrest other hmem)
      rw [hfold, ih _ hnodup hkept]
      by_cases heq : key = first
      · subst heq
        rw [if_neg hfirst, if_pos List.mem_cons_self, hback]
      · rw [hother key heq]
        exact if_congr (by rw [List.mem_cons, or_iff_right heq]) rfl rfl

/-- **The changes that lead back lead to the entries.** -/
theorem foldl_changesBack : (changesBack current target).foldl applyChange current = target := by
  refine Finmap.ext_lookup fun key => ?_
  unfold changesBack
  rw [lookup_foldl_back key _ current (Finset.sort_nodup _ _) fun _ _ => rfl]
  split
  · rfl
  · next hnot =>
      rw [Finset.mem_sort, Finset.mem_union, Finmap.mem_keys, Finmap.mem_keys, not_or] at hnot
      rw [Finmap.lookup_eq_none.mpr hnot.1, Finmap.lookup_eq_none.mpr hnot.2]

end Back

/-! ## Replays -/

section Replay

variable {α D : Type} [DecidableEq D] {codec : Codec α D} {storeId : Text}

/-- What is relied on of canonical JSON: records with one digest are the same, no
entries are few, and a backup is longer than each of its events. -/
structure Codec.Lawful (codec : Codec α D) : Prop where
  event_injective : Function.Injective codec.eventDigest
  state_injective : Function.Injective codec.stateDigest
  empty_bytes : codec.entriesBytes ∅ ≤ maximumBytes
  event_bytes : ∀ backup : Backup α D, ∀ value ∈ backup.events, codec.eventBytes value < codec.backupBytes backup

theorem validateEvent_eq_ok {value : StoreEvent α D} {before : StoreState α D} {changes : List (Change α)} :
    validateEvent codec value before = .ok changes ↔
      (value.storeId = before.storeId ∧ value.revision = before.revision + 1 ∧
        value.priorEventSha256 = before.eventSha256 ∧ value.beforeStateSha256 = before.stateSha256) ∧
      codec.eventDigest value.toEventCore = value.eventSha256 ∧ value.operation.safe = true ∧
      normalizedChanges codec before.entries value.changes = .ok changes := by
  unfold validateEvent
  split
  · next hlineage =>
      refine iff_of_false nofun fun ⟨⟨hstore, hrevision, hprior, hbefore⟩, _⟩ => ?_
      rcases hlineage with h | h | h | h
      · exact h hstore
      · exact h hrevision
      · exact h hprior
      · exact h hbefore
  · next hlineage =>
      simp only [not_or, not_not] at hlineage
      rw [and_iff_right hlineage]
      split
      · next hdigest => exact iff_of_false nofun fun h => hdigest h.1
      · next hdigest =>
          rw [and_iff_right (not_not.mp hdigest)]
          split
          · next hsafe => exact iff_of_false nofun fun h => Bool.false_ne_true (hsafe.symm.trans h.1)
          · next hsafe => rw [and_iff_right (Bool.eq_true_of_not_eq_false hsafe)]

theorem advance_eq_ok {before next : StoreState α D} {value : StoreEvent α D} :
    advance codec before value = .ok next ↔ ∃ changes entries,
      validateEvent codec value before = .ok changes ∧
      applyChanges codec before.entries changes = .ok entries ∧
      codec.entriesDigest entries = value.afterEntriesSha256 ∧
      next = stateOf codec before.storeId value.revision (some value.eventSha256) entries := by
  unfold advance
  split
  · next failure heq =>
      refine iff_of_false nofun fun ⟨changes, _, h, _⟩ => ?_
      rw [heq] at h
      cases h
  · next changes heq =>
      split
      · next failure happly =>
          refine iff_of_false nofun fun ⟨changes', entries, h, h', _⟩ => ?_
          rw [heq] at h
          cases h
          rw [happly] at h'
          cases h'
      · next entries happly =>
          constructor
          · intro h
            split at h
            · cases h
            · next hdigest => exact ⟨changes, entries, heq, happly, not_not.mp hdigest, (Except.ok.inj h).symm⟩
          · rintro ⟨changes', entries', h, h', hdigest, rfl⟩
            rw [heq] at h
            cases h
            rw [happly] at h'
            cases h'
            rw [if_neg (not_not.mpr hdigest)]

theorem replayFrom_cons {before : StoreState α D} {value : StoreEvent α D} {events : List (StoreEvent α D)}
    {states : List (StoreState α D)} :
    replayFrom codec before (value :: events) = .ok states ↔ ∃ next rest,
      advance codec before value = .ok next ∧ replayFrom codec next events = .ok rest ∧ states = next :: rest := by
  rw [replayFrom]
  split
  · next failure heq =>
      refine iff_of_false nofun fun ⟨next, _, h, _⟩ => ?_
      rw [heq] at h
      cases h
  · next next heq =>
      split
      · next failure hrest =>
          refine iff_of_false nofun fun ⟨next', rest, h, h', _⟩ => ?_
          rw [heq] at h
          cases h
          rw [hrest] at h'
          cases h'
      · next rest hrest =>
          rw [Except.ok.injEq]
          constructor
          · rintro rfl
            exact ⟨next, rest, heq, hrest, rfl⟩
          · rintro ⟨next', rest', h, h', rfl⟩
            rw [heq] at h
            cases h
            rw [hrest] at h'
            cases h'
            rfl

/-- **A replay of more events goes on from where the replay of the first ones ends.** -/
theorem replayFrom_append {events : List (StoreEvent α D)} : ∀ {before : StoreState α D}
    {more : List (StoreEvent α D)} {states : List (StoreState α D)},
    replayFrom codec before (events ++ more) = .ok states ↔ ∃ first rest,
      replayFrom codec before events = .ok first ∧
      replayFrom codec (first.getLastD before) more = .ok rest ∧ states = first ++ rest := by
  induction events with
  | nil =>
      intro before more states
      constructor
      · exact fun h => ⟨[], states, rfl, h, rfl⟩
      · rintro ⟨first, rest, h, hrest, rfl⟩
        cases h
        exact hrest
  | cons value events ih =>
      intro before more states
      rw [List.cons_append, replayFrom_cons]
      constructor
      · rintro ⟨next, rest, hadvance, hrest, rfl⟩
        obtain ⟨first, rest, hfirst, hrest, rfl⟩ := ih.mp hrest
        refine ⟨next :: first, rest, replayFrom_cons.mpr ⟨next, first, hadvance, hfirst, rfl⟩, ?_, rfl⟩
        rwa [List.getLastD_cons]
      · rintro ⟨states, rest, hstates, hrest, rfl⟩
        obtain ⟨next, first, hadvance, hfirst, rfl⟩ := replayFrom_cons.mp hstates
        rw [List.getLastD_cons] at hrest
        exact ⟨next, first ++ rest, hadvance, ih.mpr ⟨first, rest, hfirst, hrest, rfl⟩, rfl⟩

/-- A state as a replay finds it. -/
structure StoreState.Found (codec : Codec α D) (storeId : Text) (state : StoreState α D) : Prop where
  storeId : state.storeId = storeId
  sealed : state.stateSha256 = codec.stateDigest state.toStateCore
  held : Held codec state.entries

omit [DecidableEq D] in
theorem stateOf_found {revision : Nat} {eventSha256 : Option D} {entries : Entries α} (h : Held codec entries) :
    (stateOf codec storeId revision eventSha256 entries).Found codec storeId := ⟨rfl, rfl, h⟩

omit [DecidableEq D] in
theorem firstState_found (hlawful : codec.Lawful) : (firstState codec storeId).Found codec storeId :=
  stateOf_found {
    keys := fun _ _ h => by cases (Finmap.lookup_empty _).symm.trans h
    values := fun _ _ h => by cases (Finmap.lookup_empty _).symm.trans h
    count := Nat.zero_le _
    bytes := hlawful.empty_bytes }

/-- What one event leads to. -/
theorem advance_found {before next : StoreState α D} {value : StoreEvent α D} (h : before.Found codec storeId)
    (hadvance : advance codec before value = .ok next) :
    next.Found codec storeId ∧ next.revision = before.revision + 1 := by
  obtain ⟨changes, entries, hvalid, happly, -, rfl⟩ := advance_eq_ok.mp hadvance
  obtain ⟨⟨-, hrevision, -⟩, -, -, hchanges⟩ := validateEvent_eq_ok.mp hvalid
  exact ⟨h.storeId ▸ stateOf_found (h.held.applyChanges hchanges happly), hrevision⟩

/-- The states of a replay, by the events that lead to them. -/
theorem replayFrom_found {events : List (StoreEvent α D)} : ∀ {before : StoreState α D}
    {states : List (StoreState α D)}, before.Found codec storeId → replayFrom codec before events = .ok states →
      (∀ state ∈ states, state.Found codec storeId) ∧ states.length = events.length ∧
        (states.getLastD before).Found codec storeId ∧
        (states.getLastD before).revision = before.revision + events.length := by
  induction events with
  | nil =>
      intro before states hbefore h
      cases h
      exact ⟨nofun, rfl, hbefore, rfl⟩
  | cons value events ih =>
      intro before states hbefore h
      obtain ⟨next, rest, hadvance, hrest, rfl⟩ := replayFrom_cons.mp h
      obtain ⟨hnext, hrevision⟩ := advance_found hbefore hadvance
      obtain ⟨hall, hlength, hlast, hcount⟩ := ih hnext hrest
      rw [List.getLastD_cons, hcount, hrevision, List.length_cons, List.length_cons, hlength]
      exact ⟨List.forall_mem_cons.mpr ⟨hnext, hall⟩, rfl, hlast, by omega⟩

/-! ## Lineages -/

/-- What is loaded is the replay of its events. -/
def Loaded.Coherent (codec : Codec α D) (storeId : Text) (loaded : Loaded α D) : Prop :=
  replay codec storeId loaded.events = .ok loaded

theorem replay_eq_ok {events : List (StoreEvent α D)} {loaded : Loaded α D} :
    replay codec storeId events = .ok loaded ↔ ∃ states,
      replayFrom codec (firstState codec storeId) events = .ok states ∧
      loaded = ⟨events, states.getLastD (firstState codec storeId), firstState codec storeId :: states⟩ := by
  unfold replay
  dsimp only
  split
  · next failure heq =>
      refine iff_of_false nofun fun ⟨states, h, _⟩ => ?_
      rw [heq] at h
      cases h
  · next states heq =>
      rw [Except.ok.injEq]
      constructor
      · rintro rfl
        exact ⟨states, heq, rfl⟩
      · rintro ⟨states', h, rfl⟩
        rw [heq] at h
        cases h
        rfl

theorem coherent_of_replay {events : List (StoreEvent α D)} {loaded : Loaded α D}
    (h : replay codec storeId events = .ok loaded) : loaded.Coherent codec storeId ∧ loaded.events = events := by
  obtain ⟨states, hstates, rfl⟩ := replay_eq_ok.mp h
  exact ⟨h, rfl⟩

/-- What a lineage has: its head, and a state for each revision. -/
structure Loaded.Sound (codec : Codec α D) (storeId : Text) (loaded : Loaded α D) : Prop where
  head : loaded.head.Found codec storeId
  revision : loaded.head.revision = loaded.events.length
  states : ∀ state ∈ loaded.states, state.Found codec storeId
  length : loaded.states.length = loaded.events.length + 1

theorem Loaded.Coherent.sound {loaded : Loaded α D} (hlawful : codec.Lawful)
    (h : loaded.Coherent codec storeId) : loaded.Sound codec storeId := by
  obtain ⟨states, hstates, hloaded⟩ := replay_eq_ok.mp h
  obtain ⟨hall, hlength, hlast, hcount⟩ := replayFrom_found (firstState_found hlawful) hstates
  rw [hloaded]
  refine ⟨hlast, ?_, List.forall_mem_cons.mpr ⟨firstState_found hlawful, hall⟩, ?_⟩
  · rw [hcount]
    exact Nat.zero_add _
  · exact congrArg (· + 1) hlength

/-- A lineage goes on with an event that a replay accepts behind it. -/
theorem Loaded.Coherent.append {loaded : Loaded α D} (h : loaded.Coherent codec storeId)
    {value : StoreEvent α D} {next : StoreState α D} (hadvance : advance codec loaded.head value = .ok next) :
    Loaded.Coherent codec storeId ⟨loaded.events ++ [value], next, loaded.states ++ [next]⟩ := by
  obtain ⟨states, hstates, hloaded⟩ := replay_eq_ok.mp h
  rw [hloaded] at hadvance ⊢
  refine replay_eq_ok.mpr ⟨states ++ [next], replayFrom_append.mpr ⟨states, [next], hstates, ?_, rfl⟩, ?_⟩
  · exact replayFrom_cons.mpr ⟨next, [], hadvance, rfl, rfl⟩
  · rw [List.getLastD_concat]
    rfl

/-- The states of a replay, by their revisions. -/
theorem replayFrom_revisions {events : List (StoreEvent α D)} : ∀ {before : StoreState α D}
    {states : List (StoreState α D)}, replayFrom codec before events = .ok states →
      ∀ (index : Nat) (state : StoreState α D), states[index]? = some state →
        state.revision = before.revision + index + 1 := by
  induction events with
  | nil =>
      intro before states h
      cases h
      exact fun _ _ h => by cases h
  | cons value events ih =>
      intro before states h index state hstate
      obtain ⟨next, rest, hadvance, hrest, rfl⟩ := replayFrom_cons.mp h
      obtain ⟨changes, entries, hvalid, -, -, rfl⟩ := advance_eq_ok.mp hadvance
      have hnext : value.revision = before.revision + 1 := (validateEvent_eq_ok.mp hvalid).1.2.1
      cases index with
      | zero =>
          cases hstate
          exact hnext
      | succ index =>
          have hlater := ih hrest index state hstate
          rw [hlater, show (stateOf codec before.storeId value.revision (some value.eventSha256) entries).revision
            = value.revision from rfl, hnext]
          omega

/-- The state of a revision is the one at its place. -/
theorem Loaded.Coherent.revision_states {loaded : Loaded α D} (h : loaded.Coherent codec storeId)
    {revision : Nat} {target : StoreState α D} (htarget : loaded.states[revision]? = some target) :
    target.revision = revision := by
  obtain ⟨states, hstates, heq⟩ := replay_eq_ok.mp h
  rw [heq] at htarget
  cases revision with
  | zero =>
      cases htarget
      rfl
  | succ index =>
      rw [replayFrom_revisions hstates index target htarget,
        show (firstState codec storeId).revision = 0 from rfl, Nat.zero_add]

/-- A first part of a lineage is one, and what comes next is accepted behind it. -/
theorem coherent_take {first rest : List (StoreEvent α D)} {loaded : Loaded α D}
    (h : replay codec storeId (first ++ rest) = .ok loaded) : ∃ part, replay codec storeId first = .ok part ∧
      ∀ value later, rest = value :: later → ∃ changes, validateEvent codec value part.head = .ok changes := by
  obtain ⟨states, hstates, rfl⟩ := replay_eq_ok.mp h
  obtain ⟨before, after, hbefore, hafter, rfl⟩ := replayFrom_append.mp hstates
  refine ⟨_, replay_eq_ok.mpr ⟨before, hbefore, rfl⟩, fun value later heq => ?_⟩
  subst heq
  obtain ⟨next, others, hadvance, -, -⟩ := replayFrom_cons.mp hafter
  obtain ⟨changes, -, hvalid, -⟩ := advance_eq_ok.mp hadvance
  exact ⟨changes, hvalid⟩

/-- **What a store takes is an event that a replay accepts behind its lineage.** -/
theorem advance_of_transact {full : Bool} {current next : StoreState α D} {input : Transaction α D}
    {operation : StoreOperation} (hsafe : operation.safe = true) {value : StoreEvent α D}
    (h : transactLoaded codec full current input operation = .ok (value, next)) :
    advance codec current value = .ok next := by
  unfold transactLoaded at h
  split at h
  · cases h
  split at h
  · cases h
  split at h
  · cases h
  next checked hchecked =>
    split at h
    · cases h
    next entries happly =>
      dsimp only at h
      split at h
      · cases h
      cases h
      refine advance_eq_ok.mpr ⟨checked, entries, ?_, happly, rfl, rfl⟩
      exact validateEvent_eq_ok.mpr ⟨⟨rfl, rfl, rfl, rfl⟩, rfl, hsafe, normalizedChanges_again hchecked⟩

end Replay

end Sgos

end SingularityFlow
