/-
# Backups, restores and rollbacks of an operational store

What a store gives out leads back to it: a backup to its head and its events, on
every store that it goes on from (`restores_of_extends`), and a plan to go back to
the entries of an earlier revision (`rollback_iff`).  `reached_exact` says both of
every store that is reached, together with what stands between them: a restore
that stops can be taken up again, and a request that is refused changes nothing.

The ceilings are the ones of a backup that is read (8 MiB, 20000 events) and of a
transaction (128 changes, 8 MiB, and 20000 events where they are files).
-/
import SingularityFlow.Sgos.OperationalRuns

namespace SingularityFlow

open Ecma

namespace Sgos

section Exact

variable {α D : Type} [DecidableEq α] [DecidableEq D] {codec : Codec α D} {storeId : Text}

/-! ## Refusals -/

/-- **A request that is refused leaves the store as it was.** -/
theorem respond_refused (hlawful : codec.Lawful) {store after : Store α D} (hkept : Kept codec storeId store)
    {request : Request α D} {failure : Failure}
    (h : respond codec storeId store request = (after, some (.error failure))) : after = store := by
  have htransact : ∀ input operation, (transact codec storeId store input operation).map id some
      = (after, some (.error failure)) → after = store := by
    intro input operation h
    rcases transact_cases store input operation with ⟨_, heq⟩ | ⟨_, _, _, _, _, heq⟩
    · rw [heq] at h
      exact (Prod.mk.inj h).1.symm
    · rw [heq] at h
      cases (Prod.mk.inj h).2
  cases request with
  | transact input => exact htransact _ _ h
  | restore value confirmation =>
      change (restore codec storeId store value confirmation).map id some = _ at h
      rcases restore_cases hlawful hkept value confirmation with ⟨_, heq⟩ | ⟨loaded, replayed, hload, hextends, rfl⟩
      · rw [heq] at h
        exact (Prod.mk.inj h).1.symm
      · obtain ⟨_, heq, -⟩ := restore_spec hlawful hkept hextends hload
        rw [heq] at h
        cases (Prod.mk.inj h).2
  | stopped value confirmation written =>
      unfold respond at h
      dsimp only at h
      split at h
      · exact (Prod.mk.inj h).1.symm
      · split at h
        · exact (Prod.mk.inj h).1.symm
        · cases (Prod.mk.inj h).2
  | rollback revision confirmation =>
      change (rollback codec storeId store revision confirmation).map id some = _ at h
      rcases rollback_input store revision confirmation with ⟨_, heq⟩ | ⟨_, _, -, -, -, heq⟩
      · rw [heq] at h
        exact (Prod.mk.inj h).1.symm
      · rw [heq] at h
        exact htransact _ _ h

/-! ## Backups -/

/-- A backup is taken by a store: it is planned, and confirmed it leads to the head
and the events of the backup. -/
def Restores (codec : Codec α D) (storeId : Text) (store : Store α D) (value : Backup α D) : Prop :=
  ∃ plan after loaded, planRestore codec storeId store value = .ok plan ∧
    restore codec storeId store value plan.2 = (after, .ok value.head) ∧
    load codec storeId after = .ok loaded ∧ loaded.events = value.events ∧ loaded.head = value.head

theorem restores_of_extends (hlawful : codec.Lawful) {store : Store α D} (hkept : Kept codec storeId store)
    {value : Backup α D} {replayed : Loaded α D} (h : Extends codec storeId store value replayed) :
    Restores codec storeId store value := by
  obtain ⟨loaded, hload, -⟩ := h.load hlawful hkept
  obtain ⟨after, hrestore, -, hafter, hevents, hhead⟩ := restore_spec hlawful hkept h hload
  exact ⟨_, after, replayed, (planRestore_eq_ok hlawful hkept).mpr ⟨loaded, replayed, hload, h, rfl⟩, hrestore,
    hafter, hevents, hhead⟩

omit [DecidableEq α] in
/-- What is exported is the lineage and the head of the store. -/
theorem exportBackup_eq_ok {store : Store α D} (hkept : Kept codec storeId store) {value : Backup α D}
    (h : exportBackup codec storeId store = .ok value) : ∃ loaded, load codec storeId store = .ok loaded ∧
      replay codec storeId value.events = .ok loaded ∧ value.events = store.events ∧ value.head = loaded.head ∧
      value.profile = store.profile ∧ value.storeId = storeId ∧
      codec.backupDigest value.toBackupCore = value.backupSha256 := by
  unfold exportBackup at h
  split at h
  · cases h
  · next loaded hload =>
      obtain ⟨hcoherent, hevents⟩ := hkept.of_load hload
      cases h
      exact ⟨loaded, hload, hcoherent, hevents, rfl, rfl, rfl, rfl⟩

/-- What a store exports goes on from every store with a first part of its lineage,
as far as it is within the ceilings of a backup. -/
theorem extends_of_exportBackup {store other : Store α D} (hkept : Kept codec storeId store)
    {value : Backup α D} (h : exportBackup codec storeId store = .ok value)
    (hevents : value.events.length ≤ maximumEvents) (hbytes : codec.backupBytes value ≤ maximumBytes)
    (hprofile : other.profile = store.profile) (hfirst : other.events <+: value.events) :
    ∃ replayed, Extends codec storeId other value replayed := by
  obtain ⟨loaded, -, hreplay, -, hhead, hkind, hid, hdigest⟩ := exportBackup_eq_ok hkept h
  refine ⟨loaded, validateBackup_eq_ok.mpr ?_, hfirst⟩
  exact ⟨⟨hkind.trans hprofile.symm, hid⟩, hevents, hdigest, hbytes, hreplay, hhead.symm⟩

/-! ## Rollbacks -/

omit [DecidableEq α] in
theorem transactLoaded_eq_ok {full : Bool} {current next : StoreState α D} {input : Transaction α D}
    {operation : StoreOperation} {value : StoreEvent α D} :
    transactLoaded codec full current input operation = .ok (value, next) ↔
      (input.expectedRevision = current.revision ∧ input.expectedStateSha256 = current.stateSha256) ∧
      full = false ∧ ∃ changes entries, normalizedChanges codec current.entries input.changes = .ok changes ∧
        applyChanges codec current.entries changes = .ok entries ∧
        value = eventOf codec current operation changes entries ∧ codec.eventBytes value ≤ maximumBytes ∧
        next = stateOf codec current.storeId value.revision (some value.eventSha256) entries := by
  unfold transactLoaded
  split
  · next hraced =>
      refine iff_of_false nofun fun ⟨⟨hrevision, hstate⟩, _⟩ => ?_
      exact hraced.elim (· hrevision) (· hstate)
  · next hheld =>
      rw [not_or, not_not, not_not] at hheld
      rw [and_iff_right hheld]
      split
      · next hfull => exact iff_of_false nofun fun h => Bool.false_ne_true (h.1.symm.trans hfull)
      · next hroom =>
          rw [and_iff_right (Bool.eq_false_of_not_eq_true hroom)]
          cases hchanges : normalizedChanges codec current.entries input.changes with
          | error failure => exact iff_of_false nofun fun ⟨_, _, h, _⟩ => nomatch h
          | ok changes =>
              dsimp only
              cases hentries : applyChanges codec current.entries changes with
              | error failure =>
                  refine iff_of_false nofun fun ⟨_, _, h, h', _⟩ => ?_
                  cases h
                  rw [hentries] at h'
                  cases h'
              | ok entries =>
                  dsimp only
                  split
                  · next hlarge =>
                      refine iff_of_false nofun fun ⟨_, _, h, h', hvalue, hbytes, _⟩ => ?_
                      cases h
                      rw [hentries] at h'
                      cases h'
                      exact Nat.not_le.mpr hlarge (hvalue ▸ hbytes)
                  · next hsmall =>
                      rw [Except.ok.injEq, Prod.mk.injEq]
                      constructor
                      · rintro ⟨rfl, rfl⟩
                        exact ⟨changes, entries, rfl, hentries, rfl, Nat.not_lt.mp hsmall, rfl⟩
                      · rintro ⟨_, _, h, h', rfl, -, rfl⟩
                        cases h
                        rw [hentries] at h'
                        cases h'
                        exact ⟨rfl, rfl⟩

/-- The event that leads back to the entries of a revision. -/
def rollbackEvent (codec : Codec α D) (head : StoreState α D) (revision : Nat) (entries : Entries α) :
    StoreEvent α D :=
  eventOf codec head (.rollback revision) (changesBack head.entries entries) entries

/-- The ceilings of a transaction, for the one that leads back. -/
structure Affordable (codec : Codec α D) (store : Store α D) (head : StoreState α D) (revision : Nat)
    (entries : Entries α) : Prop where
  room : store.full = false
  changes : (changesBack head.entries entries).length ≤ maximumChanges
  bytes : codec.eventBytes (rollbackEvent codec head revision entries) ≤ maximumBytes

theorem changesBack_ne_nil {current target : Entries α} (h : target ≠ current) :
    changesBack current target ≠ [] := by
  intro hnil
  have hback : (changesBack current target).foldl applyChange current = target := foldl_changesBack
  rw [hnil] at hback
  exact h hback.symm

/-- The transaction that leads back is made if and only if it is within the ceilings. -/
theorem transactLoaded_back {store : Store α D} {head next : StoreState α D} {revision : Nat}
    {entries : Entries α} {value : StoreEvent α D} (hhead : Held codec head.entries)
    (hheld : Held codec entries) (hdiff : entries ≠ head.entries) :
    transactLoaded codec store.full head ⟨head.revision, head.stateSha256, changesBack head.entries entries⟩
        (.rollback revision) = .ok (value, next) ↔
      Affordable codec store head revision entries ∧ value = rollbackEvent codec head revision entries ∧
        next = stateOf codec head.storeId (head.revision + 1) (some value.eventSha256) entries := by
  have hback : applyChanges codec head.entries (changesBack head.entries entries) = .ok entries :=
    applyChanges_eq_ok.mpr ⟨foldl_changesBack.symm, hheld.count, hheld.bytes⟩
  have hchanges := fun hmost => normalizedChanges_changesBack hhead hheld (changesBack_ne_nil hdiff) hmost
  rw [transactLoaded_eq_ok]
  constructor
  · rintro ⟨-, hroom, changes, found, hnormal, happly, hvalue, hbytes, hnext⟩
    obtain ⟨⟨-, hmost⟩, -⟩ := normalizedChanges_eq_ok.mp hnormal
    rw [hchanges hmost] at hnormal
    obtain rfl := Except.ok.inj hnormal
    rw [hback] at happly
    obtain rfl := Except.ok.inj happly
    subst hvalue
    exact ⟨⟨hroom, hmost, hbytes⟩, rfl, hnext⟩
  · rintro ⟨haffordable, rfl, rfl⟩
    exact ⟨⟨rfl, rfl⟩, haffordable.room, _, _, hchanges haffordable.changes, hback, rfl, haffordable.bytes, rfl⟩

/-- **A plan to go back is made for every earlier revision, and the rollback that it
confirms is made if and only if it is within the ceilings**: then the new event leads
to the entries of that revision. -/
theorem rollback_iff (hlawful : codec.Lawful) {store : Store α D} (hkept : Kept codec storeId store)
    {loaded : Loaded α D} (hload : load codec storeId store = .ok loaded) {revision : Nat}
    (hsafe : revision ≤ maximumInteger) (hearlier : revision < loaded.head.revision) {target : StoreState α D}
    (htarget : loaded.states[revision]? = some target) (hdiff : target.entries ≠ loaded.head.entries) :
    ∃ plan, planRollback codec storeId store revision = .ok plan ∧ ∀ after next,
      rollback codec storeId store revision plan.2 = (after, .ok next) ↔
        Affordable codec store loaded.head revision target.entries ∧
        next = stateOf codec storeId (loaded.head.revision + 1)
          (some (rollbackEvent codec loaded.head revision target.entries).eventSha256) target.entries ∧
        after = store.publish (rollbackEvent codec loaded.head revision target.entries) next := by
  have hsound := (hkept.of_load hload).1.sound hlawful
  have hfound := hsound.states target (List.mem_of_getElem? htarget)
  let plan : RollbackPlan D := ⟨storeId, store.profile, loaded.head.revision, loaded.head.stateSha256, revision,
    target.stateSha256⟩
  have hplan : rollbackPlan codec storeId store loaded revision = .ok ((plan, codec.rollbackDigest plan), target) := by
    rw [rollbackPlan, if_neg (not_or.mpr ⟨Nat.not_lt.mpr hsafe, Nat.not_le.mpr hearlier⟩), htarget]
  refine ⟨(plan, codec.rollbackDigest plan), ?_, fun after next => ?_⟩
  · rw [planRollback, hload]
    dsimp only
    rw [hplan]
    rfl
  · rw [rollback, hload]
    dsimp only
    rw [hplan]
    dsimp only
    rw [if_neg fun hne => hne rfl, if_neg (changesBack_ne_nil hdiff), transact, hload]
    dsimp only
    have hback : ∀ {value made}, transactLoaded codec store.full loaded.head ⟨loaded.head.revision,
        loaded.head.stateSha256, changesBack loaded.head.entries target.entries⟩ (.rollback revision)
          = .ok (value, made) ↔ Affordable codec store loaded.head revision target.entries ∧
        value = rollbackEvent codec loaded.head revision target.entries ∧
        made = stateOf codec loaded.head.storeId (loaded.head.revision + 1) (some value.eventSha256)
          target.entries := transactLoaded_back hsound.head.held hfound.held hdiff
    split
    · next failure hrefused =>
        refine iff_of_false (fun h => nomatch (Prod.mk.inj h).2) fun ⟨haffordable, _⟩ => ?_
        rw [hback.mpr ⟨haffordable, rfl, rfl⟩] at hrefused
        cases hrefused
    · next value made hmade =>
        obtain ⟨haffordable, rfl, rfl⟩ := hback.mp hmade
        rw [hsound.head.storeId, and_iff_right haffordable, Prod.mk.injEq, Except.ok.injEq]
        constructor
        · rintro ⟨rfl, rfl⟩
          exact ⟨rfl, rfl⟩
        · rintro ⟨rfl, rfl⟩
          exact ⟨rfl, rfl⟩

/-! ## Every store that is reached -/

/-- What a store begins with. -/
def Store.empty (codec : Codec α D) (storeId : Text) : StoreProfile → Store α D
  | .memoryReplay => .memory ⟨[], firstState codec storeId, [firstState codec storeId]⟩
  | .filesystemReplay => .files false []
  | .filesystemLive => .files true []

/-- The stores that requests lead to, whatever they ask for. -/
inductive Reached (codec : Codec α D) (storeId : Text) : Store α D → Prop
  | empty (profile : StoreProfile) : Reached codec storeId (Store.empty codec storeId profile)
  | respond {store : Store α D} (request : Request α D) : Reached codec storeId store →
      Reached codec storeId (Sgos.respond codec storeId store request).1

theorem kept_of_reached (hlawful : codec.Lawful) {store : Store α D} (h : Reached codec storeId store) :
    Kept codec storeId store := by
  induction h with
  | empty profile =>
      cases profile with
      | memoryReplay => exact rfl
      | filesystemReplay => exact ⟨Nat.zero_le _, _, rfl⟩
      | filesystemLive => exact ⟨Nat.zero_le _, _, rfl⟩
  | respond request _ ih => exact ih.respond hlawful request

/-- Backups, restores and rollbacks of a store are exact, within the ceilings. -/
structure Exact (codec : Codec α D) (storeId : Text) (store : Store α D) : Prop where
  /-- What is exported is taken by every store with a first part of its lineage, also
  where a restore of it has stopped before. -/
  backup : ∀ value, exportBackup codec storeId store = .ok value → value.events.length ≤ maximumEvents →
    codec.backupBytes value ≤ maximumBytes → ∀ other, Reached codec storeId other →
      other.profile = store.profile → other.events <+: value.events →
        Restores codec storeId other value ∧ ∀ written,
          (stoppedRestore other value written).events <+: value.events ∧
          Restores codec storeId (stoppedRestore other value written) value
  /-- Every earlier revision with other entries has a plan, and the rollback it confirms
  is made as far as it is within the ceilings; it adds one event, and leads to those entries. -/
  rollback : ∀ loaded, load codec storeId store = .ok loaded → ∀ revision target,
    revision ≤ maximumInteger → revision < loaded.head.revision → loaded.states[revision]? = some target →
      target.entries ≠ loaded.head.entries → ∃ plan, planRollback codec storeId store revision = .ok plan ∧
        ((∃ after next, Sgos.rollback codec storeId store revision plan.2 = (after, .ok next)) ↔
          Affordable codec store loaded.head revision target.entries) ∧
        ∀ after next, Sgos.rollback codec storeId store revision plan.2 = (after, .ok next) →
          target.revision = revision ∧ next.entries = target.entries ∧
          next.revision = loaded.head.revision + 1 ∧
          ∃ value, after.events = store.events ++ [value] ∧ value.operation = .rollback revision
  refused : ∀ request after failure,
    respond codec storeId store request = (after, some (.error failure)) → after = store

/-- **Every store that is reached is exact.** -/
theorem reached_exact (hlawful : codec.Lawful) {store : Store α D} (h : Reached codec storeId store) :
    Exact codec storeId store := by
  have hkept := kept_of_reached hlawful h
  constructor
  case backup =>
    intro value hexport hevents hbytes other hother hprofile hfirst
    have hkeptOther := kept_of_reached hlawful hother
    obtain ⟨replayed, hextends⟩ := extends_of_exportBackup hkept hexport hevents hbytes hprofile hfirst
    refine ⟨restores_of_extends hlawful hkeptOther hextends, fun written => ?_⟩
    obtain ⟨hstopped, hagain⟩ := hextends.stopped hkeptOther written
    exact ⟨hagain.lineage, restores_of_extends hlawful hstopped hagain⟩
  case rollback =>
    intro loaded hload revision target hsafe hearlier htarget hdiff
    obtain ⟨plan, hplan, hiff⟩ := rollback_iff hlawful hkept hload hsafe hearlier htarget hdiff
    refine ⟨plan, hplan, ⟨?_, fun haffordable => ⟨_, _, (hiff _ _).mpr ⟨haffordable, rfl, rfl⟩⟩⟩, ?_⟩
    · rintro ⟨after, next, hrollback⟩
      exact ((hiff after next).mp hrollback).1
    · intro after next hrollback
      obtain ⟨-, rfl, rfl⟩ := (hiff after next).mp hrollback
      refine ⟨(hkept.of_load hload).1.revision_states htarget, rfl, rfl,
        rollbackEvent codec loaded.head revision target.entries, ?_, rfl⟩
      cases store <;> rfl
  case refused => exact fun request after failure => respond_refused hlawful hkept

end Exact

/-! ## A backup that is not read -/

/-- Digests that are what they are digests of. -/
inductive Digest where
  | entries (entries : Entries Nat)
  | opening (storeId : Text) (revision : Nat) (entriesSha256 : Digest) (entries : Entries Nat)
  | state (storeId : Text) (revision : Nat) (eventSha256 entriesSha256 : Digest) (entries : Entries Nat)
  | firstEvent (storeId : Text) (revision : Nat) (before after : Digest) (operation : StoreOperation)
      (changes : List (Change Nat))
  | event (storeId : Text) (revision : Nat) (prior before after : Digest) (operation : StoreOperation)
      (changes : List (Change Nat))
  | backup (profile : StoreProfile) (storeId : Text) (head : Digest)
  | restorePlan (profile : StoreProfile) (storeId : Text) (before after backup : Digest)
  | rollbackPlan (profile : StoreProfile) (storeId : Text) (revision : Nat) (before target : Digest)
deriving DecidableEq

namespace Sized

/-- What an event adds to the texts around its values. -/
def changeBytes : Change Nat → Nat
  | .put key value => key.length + value + 32
  | .delete key => key.length + 24

def entriesBytes (entries : Entries Nat) : Nat :=
  ((entries.keys.sort LeUnits).map fun key => key.length + (entries.lookup key).getD 0 + 4).sum + 2

def eventBytes (value : StoreEvent Nat Digest) : Nat := (value.changes.map changeBytes).sum + 600

def eventDigest (core : EventCore Nat Digest) : Digest :=
  match core.priorEventSha256 with
  | none => .firstEvent core.storeId core.revision core.beforeStateSha256 core.afterEntriesSha256 core.operation
      core.changes
  | some prior => .event core.storeId core.revision prior core.beforeStateSha256 core.afterEntriesSha256
      core.operation core.changes

def stateDigest (core : StateCore Nat Digest) : Digest :=
  match core.eventSha256 with
  | none => .opening core.storeId core.revision core.entriesSha256 core.entries
  | some event => .state core.storeId core.revision event core.entriesSha256 core.entries

/-- Canonical JSON of values that are known by their sizes. -/
def codec : Codec Nat Digest where
  entriesDigest := .entries
  stateDigest := stateDigest
  eventDigest := eventDigest
  backupDigest core := .backup core.profile core.storeId core.head.stateSha256
  restoreDigest plan := .restorePlan plan.profile plan.storeId plan.beforeStateSha256 plan.afterStateSha256
    plan.backupSha256
  rollbackDigest plan := .rollbackPlan plan.profile plan.storeId plan.targetRevision plan.beforeStateSha256
    plan.targetStateSha256
  valueBytes := id
  entriesBytes := entriesBytes
  eventBytes := eventBytes
  backupBytes backup := (backup.events.map eventBytes).sum + entriesBytes backup.head.entries + 600

theorem lawful : codec.Lawful where
  event_injective := by
    rintro ⟨storeId, revision, prior, before, after, operation, changes⟩
      ⟨storeId', revision', prior', before', after', operation', changes'⟩ h
    cases prior with
    | none =>
        cases prior' with
        | none =>
            cases h
            rfl
        | some => cases h
    | some =>
        cases prior' with
        | none => cases h
        | some =>
            cases h
            rfl
  state_injective := by
    rintro ⟨storeId, revision, event, digest, entries⟩ ⟨storeId', revision', event', digest', entries'⟩ h
    cases event with
    | none =>
        cases event' with
        | none =>
            cases h
            rfl
        | some => cases h
    | some =>
        cases event' with
        | none => cases h
        | some =>
            cases h
            rfl
  empty_bytes := by decide +kernel
  event_bytes := by
    intro backup value hvalue
    have hsum := List.single_le_sum (fun _ _ => Nat.zero_le _) (eventBytes value)
      (List.mem_map_of_mem hvalue)
    change eventBytes value
      < (backup.events.map eventBytes).sum + entriesBytes backup.head.entries + 600
    omega

/-- A store in memory that one key is put into, once with each of some values. -/
def written (values : List Nat) : Store Nat Digest :=
  values.foldl (fun store value =>
    match load codec (js "ops") store with
    | .error _ => store
    | .ok loaded => (respond codec (js "ops") store
        (.transact ⟨loaded.head.revision, loaded.head.stateSha256, [.put (js "blob") value]⟩)).1)
    (Store.empty codec (js "ops") .memoryReplay)

theorem written_reached (values : List Nat) : Reached codec (js "ops") (written values) := by
  refine List.foldlRecOn values _ (.empty .memoryReplay) fun store h value _ => ?_
  split
  · exact h
  · exact h.respond _

end Sized

/-- A store that one key was put into twice, and what holds of it. -/
theorem reached_exact_written : Exact Sized.codec (js "ops") (Sized.written [1, 2]) :=
  reached_exact Sized.lawful (Sized.written_reached [1, 2])

/-- Two values of 5000000 and 5000001 bytes under one key: the store exports a backup
that it does not read itself. -/
theorem exportBackup_unread : Reached Sized.codec (js "ops") (Sized.written [5000000, 5000001]) ∧
    (exportBackup Sized.codec (js "ops") (Sized.written [5000000, 5000001])).toOption.map
      (planRestore Sized.codec (js "ops") (Sized.written [5000000, 5000001]))
        = some (.error (overLimit (js "Operational backup"))) :=
  ⟨Sized.written_reached _, by decide +kernel⟩

end Sgos

end SingularityFlow
