/-
# Runs of an operational store

A store that is reached from an empty one keeps a lineage that a replay accepts,
whatever was asked of it (`kept_of_reached`).  So a restore, once it is confirmed,
runs to its end (`restore_spec`), also where an earlier one stopped between two
events, and a request that is refused leaves the store as it was (`respond_refused`).

Three ceilings are not seen by what comes before them.  A backup is exported
whatever its size, and a plan to go back is made whatever number of keys it
changes, but only a backup of 8 MiB is read, and only 128 changes are made at once.
Within the ceilings the store is exact (`reached_exact`).
-/
import SingularityFlow.Sgos.OperationalReplay

namespace SingularityFlow

open Ecma

namespace Sgos

/-! ## Digests of events -/

section Lineage

variable {α D : Type} {codec : Codec α D} {storeId : Text}

/-- Events of one digest are the same, where their digests are their own. -/
theorem Codec.Lawful.event_eq (hlawful : codec.Lawful) {value other : StoreEvent α D}
    (hvalue : codec.eventDigest value.toEventCore = value.eventSha256)
    (hother : codec.eventDigest other.toEventCore = other.eventSha256)
    (heq : value.eventSha256 = other.eventSha256) : value = other := by
  obtain ⟨core, sha⟩ := value
  obtain ⟨core', sha'⟩ := other
  obtain rfl : sha = sha' := heq
  obtain rfl : core = core' := hlawful.event_injective (hvalue.trans hother.symm)
  rfl

/-- The events of a backup that is read can be read from files. -/
theorem Codec.Lawful.readable_events (hlawful : codec.Lawful) {value : Backup α D}
    (hbytes : codec.backupBytes value ≤ maximumBytes) : value.events.all (readable codec) = true := by
  refine List.all_eq_true.mpr fun event hevent => decide_eq_true ?_
  exact Nat.le_trans (Nat.succ_le_of_lt (hlawful.event_bytes value event hevent)) hbytes

variable [DecidableEq D]

theorem Codec.Lawful.prefix_of_digests (hlawful : codec.Lawful) : ∀ {events others : List (StoreEvent α D)},
    (∀ value ∈ events, codec.eventDigest value.toEventCore = value.eventSha256) →
    (∀ value ∈ others, codec.eventDigest value.toEventCore = value.eventSha256) →
    (events.map StoreEvent.eventSha256).isPrefixOf (others.map StoreEvent.eventSha256) = true →
      events <+: others := by
  intro events
  induction events with
  | nil => exact fun _ _ _ => ⟨_, List.nil_append _⟩
  | cons value events ih =>
      intro others hevents hothers h
      cases others with
      | nil => cases h
      | cons other others =>
          obtain ⟨hvalue, hevents⟩ := List.forall_mem_cons.mp hevents
          obtain ⟨hother, hothers⟩ := List.forall_mem_cons.mp hothers
          rw [List.map_cons, List.map_cons, List.isPrefixOf_cons_cons, Bool.and_eq_true, beq_iff_eq] at h
          have heq := hlawful.event_eq hvalue hother h.1
          exact List.cons_prefix_cons.mpr ⟨heq, ih hevents hothers h.2⟩

theorem replayFrom_sealed {events : List (StoreEvent α D)} : ∀ {before : StoreState α D}
    {states : List (StoreState α D)}, replayFrom codec before events = .ok states →
      ∀ value ∈ events, codec.eventDigest value.toEventCore = value.eventSha256 := by
  induction events with
  | nil => exact fun _ => nofun
  | cons value events ih =>
      intro before states h
      obtain ⟨next, rest, hadvance, hrest, -⟩ := replayFrom_cons.mp h
      obtain ⟨changes, -, hvalid, -⟩ := advance_eq_ok.mp hadvance
      exact List.forall_mem_cons.mpr ⟨(validateEvent_eq_ok.mp hvalid).2.1, ih hrest⟩

theorem Loaded.Coherent.sealed {loaded : Loaded α D} (h : loaded.Coherent codec storeId) :
    ∀ value ∈ loaded.events, codec.eventDigest value.toEventCore = value.eventSha256 := by
  obtain ⟨states, hstates, -⟩ := replay_eq_ok.mp h
  exact replayFrom_sealed hstates

theorem load_files_eq_ok {live : Bool} {events : List (StoreEvent α D)} {loaded : Loaded α D} :
    load codec storeId (.files live events) = .ok loaded ↔ events.length ≤ maximumEvents ∧
      events.all (readable codec) = true ∧ replay codec storeId events = .ok loaded := by
  rw [load]
  split
  · next hmany => exact iff_of_false nofun fun h => Nat.not_le.mpr hmany h.1
  · next hfew =>
      rw [and_iff_right (Nat.not_lt.mp hfew)]
      split
      · next hlarge => exact iff_of_false nofun fun h => Bool.false_ne_true (hlarge.symm.trans h.1)
      · next hread => rw [and_iff_right (Bool.eq_true_of_not_eq_false hread)]

theorem not_full_of_transact {full : Bool} {current : StoreState α D} {input : Transaction α D}
    {operation : StoreOperation} {result : StoreEvent α D × StoreState α D}
    (h : transactLoaded codec full current input operation = .ok result) : full = false := by
  unfold transactLoaded at h
  split at h
  · cases h
  · split at h
    · cases h
    · next hfull => exact Bool.eq_false_of_not_eq_true hfull

/-- A lineage that goes on from another has another head, or is the same. -/
theorem Loaded.Coherent.eq_of_head (hlawful : codec.Lawful) {loaded replayed : Loaded α D}
    (h : loaded.Coherent codec storeId) (h' : replayed.Coherent codec storeId)
    (hfirst : loaded.events <+: replayed.events)
    (hhead : loaded.head.stateSha256 = replayed.head.stateSha256) : loaded = replayed := by
  have hsound := h.sound hlawful
  have hsound' := h'.sound hlawful
  have hcore : loaded.head.toStateCore = replayed.head.toStateCore := by
    refine hlawful.state_injective ?_
    rw [← hsound.head.sealed, ← hsound'.head.sealed, hhead]
  have hlength : loaded.events.length = replayed.events.length := by
    rw [← hsound.revision, ← hsound'.revision]
    exact congrArg StateCore.revision hcore
  have hreplay : replay codec storeId loaded.events = .ok loaded := h
  rw [hfirst.eq_of_length hlength, show replay codec storeId replayed.events = .ok replayed from h'] at hreplay
  exact (Except.ok.inj hreplay).symm

/-! ## What is kept -/

/-- The lineage of a store is one that a replay accepts. -/
def Kept (codec : Codec α D) (storeId : Text) : Store α D → Prop
  | .memory loaded => loaded.Coherent codec storeId
  | .files _ events => events.length ≤ maximumEvents ∧ ∃ loaded, replay codec storeId events = .ok loaded

/-- What is loaded of a store is its lineage. -/
theorem Kept.of_load {store : Store α D} (h : Kept codec storeId store) {loaded : Loaded α D}
    (hload : load codec storeId store = .ok loaded) :
    loaded.Coherent codec storeId ∧ loaded.events = store.events := by
  cases store with
  | memory kept =>
      cases hload
      exact ⟨h, rfl⟩
  | files live events => exact coherent_of_replay (load_files_eq_ok.mp hload).2.2

theorem Kept.publish {store : Store α D} (h : Kept codec storeId store) {loaded : Loaded α D}
    (hload : load codec storeId store = .ok loaded) (hfull : store.full = false) {value : StoreEvent α D}
    {next : StoreState α D} (hadvance : advance codec loaded.head value = .ok next) :
    Kept codec storeId (store.publish value next) := by
  obtain ⟨hcoherent, hevents⟩ := h.of_load hload
  have happend := hcoherent.append hadvance
  cases store with
  | memory kept =>
      cases hload
      exact happend
  | files live events =>
      have hroom : events.length < maximumEvents := Nat.not_le.mp (of_decide_eq_false hfull)
      refine ⟨?_, ⟨loaded.events ++ [value], next, loaded.states ++ [next]⟩, ?_⟩
      · rw [List.length_append, List.length_singleton]
        exact hroom
      · rw [← show loaded.events = events from hevents]
        exact happend

/-! ## Transactions -/

/-- A transaction publishes its event, or leaves the store as it is. -/
theorem transact_cases (store : Store α D) (input : Transaction α D) (operation : StoreOperation) :
    (∃ failure, transact codec storeId store input operation = (store, .error failure)) ∨
    ∃ loaded value next, load codec storeId store = .ok loaded ∧
      transactLoaded codec store.full loaded.head input operation = .ok (value, next) ∧
      transact codec storeId store input operation = (store.publish value next, .ok next) := by
  unfold transact
  split
  · next failure _ => exact .inl ⟨failure, rfl⟩
  · next loaded hload =>
      split
      · next failure _ => exact .inl ⟨failure, rfl⟩
      · next value next htransact => exact .inr ⟨loaded, value, next, hload, htransact, rfl⟩

theorem Kept.transact {store : Store α D} (h : Kept codec storeId store) (input : Transaction α D)
    {operation : StoreOperation} (hsafe : operation.safe = true) :
    Kept codec storeId (Sgos.transact codec storeId store input operation).1 := by
  rcases transact_cases store input operation with ⟨failure, heq⟩ | ⟨loaded, value, next, hload, hvalue, heq⟩
  · rw [heq]
    exact h
  · rw [heq]
    exact h.publish hload (not_full_of_transact hvalue) (advance_of_transact hsafe hvalue)

/-- An import writes all of the events. -/
theorem importEvents_spec {live : Bool} (rest : List (StoreEvent α D)) : ∀ {events : List (StoreEvent α D)}
    {loaded : Loaded α D}, load codec storeId (.files live (events ++ rest)) = .ok loaded →
      importEvents codec storeId live events rest = (.files live (events ++ rest), .ok ()) := by
  induction rest with
  | nil =>
      intro events loaded _
      rw [importEvents, List.append_nil]
  | cons value rest ih =>
      intro events loaded h
      obtain ⟨hlength, hread, hreplay⟩ := load_files_eq_ok.mp h
      obtain ⟨part, hpart, hnext⟩ := coherent_take hreplay
      obtain ⟨changes, hvalid⟩ := hnext value rest rfl
      have hload : load codec storeId (.files live events) = .ok part := by
        refine load_files_eq_ok.mpr ⟨?_, ?_, hpart⟩
        · rw [List.length_append] at hlength
          omega
        · rw [List.all_append, Bool.and_eq_true] at hread
          exact hread.1
      have hmore : events ++ value :: rest = (events ++ [value]) ++ rest := by
        rw [List.append_assoc, List.singleton_append]
      rw [hmore] at h ⊢
      rw [importEvents, hload]
      dsimp only
      rw [hvalid]
      exact ih h

end Lineage

section Runs

variable {α D : Type} [DecidableEq α] [DecidableEq D] {codec : Codec α D} {storeId : Text}

/-! ## Restores -/

/-- What a backup has to be. -/
theorem validateBackup_eq_ok {profile : StoreProfile} {value : Backup α D} {replayed : Loaded α D} :
    validateBackup codec storeId profile value = .ok replayed ↔
      (value.profile = profile ∧ value.storeId = storeId) ∧ value.events.length ≤ maximumEvents ∧
        codec.backupDigest value.toBackupCore = value.backupSha256 ∧ codec.backupBytes value ≤ maximumBytes ∧
        replay codec storeId value.events = .ok replayed ∧ replayed.head = value.head := by
  unfold validateBackup
  split
  · next hkind =>
      refine iff_of_false nofun fun ⟨⟨hprofile, hstore⟩, _⟩ => ?_
      exact hkind.elim (· hprofile) (· hstore)
  · next hkind =>
      rw [not_or, not_not, not_not] at hkind
      rw [and_iff_right hkind]
      split
      · next hmany => exact iff_of_false nofun fun h => Nat.not_le.mpr hmany h.1
      · next hfew =>
          rw [and_iff_right (Nat.not_lt.mp hfew)]
          split
          · next hdigest => exact iff_of_false nofun fun h => hdigest h.1
          · next hdigest =>
              rw [and_iff_right (not_not.mp hdigest)]
              split
              · next hlarge => exact iff_of_false nofun fun h => Nat.not_le.mpr hlarge h.1
              · next hsmall =>
                  rw [and_iff_right (Nat.not_lt.mp hsmall)]
                  cases hreplay : replay codec storeId value.events with
                  | error failure => exact iff_of_false nofun fun h => nomatch h.1
                  | ok found =>
                      dsimp only
                      split
                      · next hhead =>
                          refine iff_of_false nofun fun ⟨hfound, h⟩ => ?_
                          exact hhead (Except.ok.inj hfound ▸ h)
                      · next hhead =>
                          refine ⟨fun h => ⟨h, Except.ok.inj h ▸ not_not.mp hhead⟩, fun h => h.1⟩

/-- The backup is one of a lineage that goes on from that of the store. -/
structure Extends (codec : Codec α D) (storeId : Text) (store : Store α D) (value : Backup α D)
    (replayed : Loaded α D) : Prop where
  valid : validateBackup codec storeId store.profile value = .ok replayed
  lineage : store.events <+: value.events

theorem drop_of_prefix {β : Type} {l l' : List β} (h : l <+: l') : l ++ l'.drop l.length = l' := by
  obtain ⟨rest, rfl⟩ := h
  rw [List.drop_left]

/-- A store whose lineage a backup goes on from can be loaded. -/
theorem Extends.load (hlawful : codec.Lawful) {store : Store α D} (hkept : Kept codec storeId store)
    {value : Backup α D} {replayed : Loaded α D} (h : Extends codec storeId store value replayed) :
    ∃ loaded, load codec storeId store = .ok loaded ∧ loaded.Coherent codec storeId ∧
      loaded.events = store.events := by
  obtain ⟨-, -, -, hbytes, -⟩ := validateBackup_eq_ok.mp h.valid
  cases store with
  | memory loaded => exact ⟨loaded, rfl, hkept, rfl⟩
  | files live events =>
      obtain ⟨hlength, loaded, hreplay⟩ := hkept
      have hread : events.all (readable codec) = true := List.all_eq_true.mpr fun event hevent =>
        List.all_eq_true.mp (hlawful.readable_events hbytes) event (h.lineage.subset hevent)
      exact ⟨loaded, load_files_eq_ok.mpr ⟨hlength, hread, hreplay⟩, coherent_of_replay hreplay⟩

/-- The plan of a restore, where the backup goes on from the store. -/
def planOf (codec : Codec α D) (storeId : Text) (store : Store α D) (loaded : Loaded α D)
    (value : Backup α D) : Confirmed (RestorePlan D) D :=
  let plan : RestorePlan D := ⟨storeId, store.profile, loaded.head.stateSha256 ≠ value.head.stateSha256,
    loaded.head.stateSha256, value.head.stateSha256, value.backupSha256⟩
  (plan, codec.restoreDigest plan)

/-- A plan is made if and only if the backup goes on from the store. -/
theorem restorePlan_eq_ok (hlawful : codec.Lawful) {store : Store α D} {loaded : Loaded α D}
    (hcoherent : loaded.Coherent codec storeId) (hevents : loaded.events = store.events) {value : Backup α D}
    {replayed : Loaded α D} {plan : Confirmed (RestorePlan D) D} :
    restorePlan codec storeId store loaded value = .ok (plan, replayed) ↔
      Extends codec storeId store value replayed ∧ plan = planOf codec storeId store loaded value := by
  unfold restorePlan
  cases hvalid : validateBackup codec storeId store.profile value with
  | error failure =>
      refine iff_of_false nofun fun h => ?_
      rw [h.1.valid] at hvalid
      cases hvalid
  | ok found =>
      obtain ⟨-, -, -, -, hreplay, -⟩ := validateBackup_eq_ok.mp hvalid
      obtain ⟨hfound, hsame⟩ := coherent_of_replay hreplay
      have hforwards : fastForwards store loaded value = true ↔ store.events <+: value.events := by
        have hreach : store.reach loaded = loaded.events.length := by
          cases store with
          | memory => exact (hcoherent.sound hlawful).revision
          | files => rfl
        rw [fastForwards, hreach, Bool.and_eq_true, decide_eq_true_eq, ← hevents]
        constructor
        · rintro ⟨-, hdigests⟩
          exact hlawful.prefix_of_digests hcoherent.sealed (hsame ▸ hfound.sealed) hdigests
        · intro h
          refine ⟨h.length_le, ?_⟩
          rw [List.isPrefixOf_iff_prefix]
          exact h.map _
      dsimp only
      split
      · next hnot =>
          refine iff_of_false nofun fun h => ?_
          rw [hforwards.mpr h.1.lineage] at hnot
          cases hnot
      · next hfirst =>
          rw [Except.ok.injEq, Prod.mk.injEq]
          constructor
          · rintro ⟨rfl, rfl⟩
            exact ⟨⟨hvalid, hforwards.mp (Bool.eq_true_of_not_eq_false hfirst)⟩, rfl⟩
          · rintro ⟨⟨hvalid', -⟩, rfl⟩
            rw [hvalid] at hvalid'
            exact ⟨rfl, Except.ok.inj hvalid'⟩

/-- **A confirmed restore runs to its end**: the store has the lineage of the backup,
and its head. -/
theorem restore_spec (hlawful : codec.Lawful) {store : Store α D} (hkept : Kept codec storeId store)
    {value : Backup α D} {replayed loaded : Loaded α D} (h : Extends codec storeId store value replayed)
    (hload : load codec storeId store = .ok loaded) :
    ∃ after, restore codec storeId store value (planOf codec storeId store loaded value).2
        = (after, .ok value.head) ∧ Kept codec storeId after ∧
      load codec storeId after = .ok replayed ∧ replayed.events = value.events ∧ replayed.head = value.head := by
  obtain ⟨hcoherent, hevents⟩ := hkept.of_load hload
  obtain ⟨-, hlength, -, hbytes, hreplay, hhead⟩ := validateBackup_eq_ok.mp h.valid
  obtain ⟨hreplayed, hsame⟩ := coherent_of_replay hreplay
  have hplan := (restorePlan_eq_ok hlawful hcoherent hevents).mpr ⟨h, rfl⟩
  have hadopt : ∃ after, adopt codec storeId store loaded (planOf codec storeId store loaded value).1 value
      replayed = (after, .ok ()) ∧ Kept codec storeId after ∧ load codec storeId after = .ok replayed := by
    cases store with
    | memory kept =>
        cases hload
        by_cases hmoved : loaded.head.stateSha256 = value.head.stateSha256
        · -- a digest names its state, and a state its revision
          have heq := hkept.eq_of_head hlawful hreplayed (hsame ▸ h.lineage) (hhead ▸ hmoved)
          refine ⟨.memory loaded, ?_, hkept, congrArg Except.ok heq⟩
          simp [adopt, planOf, hmoved]
        · refine ⟨.memory replayed, ?_, hreplayed, rfl⟩
          simp [adopt, planOf, hmoved]
    | files live events =>
        have hall : events ++ value.events.drop events.length = value.events := drop_of_prefix h.lineage
        have hafter : load codec storeId (.files live value.events) = .ok replayed :=
          load_files_eq_ok.mpr ⟨hlength, hlawful.readable_events hbytes, hreplay⟩
        refine ⟨.files live value.events, ?_, ⟨hlength, replayed, hreplay⟩, hafter⟩
        rw [← hall] at hafter
        have himport := importEvents_spec _ hafter
        rw [hall] at himport
        rw [adopt, hevents]
        exact himport
  obtain ⟨after, hadopt, hafter, hloaded⟩ := hadopt
  refine ⟨after, ?_, hafter, hloaded, hsame, hhead⟩
  generalize planOf codec storeId store loaded value = plan at hplan hadopt ⊢
  obtain ⟨plan, required⟩ := plan
  unfold restore
  rw [hload]
  dsimp only
  rw [hplan]
  dsimp only
  rw [if_neg fun hne => hne rfl, hadopt]
  dsimp only
  rw [hloaded]
  dsimp only
  rw [hhead]

/-- A restore is refused, and the store is as it was, or it is confirmed. -/
theorem restore_cases (hlawful : codec.Lawful) {store : Store α D} (hkept : Kept codec storeId store)
    (value : Backup α D) (confirmation : D) :
    (∃ failure, restore codec storeId store value confirmation = (store, .error failure)) ∨
    ∃ loaded replayed, load codec storeId store = .ok loaded ∧ Extends codec storeId store value replayed ∧
      confirmation = (planOf codec storeId store loaded value).2 := by
  cases hload : load codec storeId store with
  | error failure =>
      refine .inl ⟨failure, ?_⟩
      rw [restore, hload]
  | ok loaded =>
      obtain ⟨hcoherent, hevents⟩ := hkept.of_load hload
      cases hplan : restorePlan codec storeId store loaded value with
      | error failure =>
          refine .inl ⟨failure, ?_⟩
          rw [restore, hload]
          dsimp only
          rw [hplan]
      | ok result =>
          obtain ⟨plan, replayed⟩ := result
          obtain ⟨hextends, hplanned⟩ := (restorePlan_eq_ok hlawful hcoherent hevents).mp hplan
          by_cases hconfirmed : confirmation = plan.2
          · exact .inr ⟨loaded, replayed, rfl, hextends, hplanned ▸ hconfirmed⟩
          · rw [restore, hload]
            dsimp only
            rw [hplan]
            dsimp only
            rw [if_pos hconfirmed]
            exact .inl ⟨_, rfl⟩

theorem planRestore_eq_ok (hlawful : codec.Lawful) {store : Store α D} (hkept : Kept codec storeId store)
    {value : Backup α D} {plan : Confirmed (RestorePlan D) D} :
    planRestore codec storeId store value = .ok plan ↔ ∃ loaded replayed,
      load codec storeId store = .ok loaded ∧ Extends codec storeId store value replayed ∧
        plan = planOf codec storeId store loaded value := by
  unfold planRestore
  cases hload : load codec storeId store with
  | error failure => exact iff_of_false nofun fun ⟨_, _, h, _⟩ => nomatch h
  | ok loaded =>
      obtain ⟨hcoherent, hevents⟩ := hkept.of_load hload
      dsimp only
      cases hplan : restorePlan codec storeId store loaded value with
      | error failure =>
          refine iff_of_false nofun fun ⟨loaded', replayed, hloaded, hextends, _⟩ => ?_
          obtain rfl := Except.ok.inj hloaded
          rw [(restorePlan_eq_ok hlawful hcoherent hevents).mpr ⟨hextends, rfl⟩] at hplan
          cases hplan
      | ok result =>
          obtain ⟨plan', replayed⟩ := result
          obtain ⟨hextends, rfl⟩ := (restorePlan_eq_ok hlawful hcoherent hevents).mp hplan
          constructor
          · intro h
            exact ⟨loaded, replayed, rfl, hextends, (Except.ok.inj h).symm⟩
          · rintro ⟨loaded', _, hloaded, -, rfl⟩
            obtain rfl := Except.ok.inj hloaded
            rfl

omit [DecidableEq α] [DecidableEq D] in
theorem profile_stoppedRestore (store : Store α D) (value : Backup α D) (written : Nat) :
    (stoppedRestore store value written).profile = store.profile := by
  cases store with
  | memory => rfl
  | files live => cases live <;> rfl

/-- What a restore that stops leaves is a first part of the lineage of the backup. -/
theorem Extends.stopped {store : Store α D} (hkept : Kept codec storeId store) {value : Backup α D}
    {replayed : Loaded α D} (h : Extends codec storeId store value replayed) (written : Nat) :
    Kept codec storeId (stoppedRestore store value written) ∧
      Extends codec storeId (stoppedRestore store value written) value replayed := by
  cases store with
  | memory loaded => exact ⟨hkept, h⟩
  | files live events =>
      obtain ⟨-, hlength, -, -, hreplay, -⟩ := validateBackup_eq_ok.mp h.valid
      have hall : events ++ value.events.drop events.length = value.events := drop_of_prefix h.lineage
      have hsplit : (events ++ (value.events.drop events.length).take written)
          ++ (value.events.drop events.length).drop written = value.events := by
        rw [List.append_assoc, List.take_append_drop, hall]
      have hfirst : events ++ (value.events.drop events.length).take written <+: value.events :=
        ⟨_, hsplit⟩
      rw [← hsplit] at hreplay
      obtain ⟨part, hpart, -⟩ := coherent_take hreplay
      have hvalid := h.valid
      rw [← profile_stoppedRestore _ value written] at hvalid
      exact ⟨⟨hfirst.length_le.trans hlength, part, hpart⟩, hvalid, hfirst⟩

/-! ## Every request -/

/-- A rollback is refused, or it is the transaction that leads back. -/
theorem rollback_input (store : Store α D) (revision : Nat) (confirmation : D) :
    (∃ failure, rollback codec storeId store revision confirmation = (store, .error failure)) ∨
    ∃ loaded target, load codec storeId store = .ok loaded ∧ loaded.states[revision]? = some target ∧
      revision ≤ maximumInteger ∧ rollback codec storeId store revision confirmation
        = transact codec storeId store ⟨loaded.head.revision, loaded.head.stateSha256,
            changesBack loaded.head.entries target.entries⟩ (.rollback revision) := by
  unfold rollback
  split
  · next failure _ => exact .inl ⟨failure, rfl⟩
  · next loaded hload =>
      split
      · next failure _ => exact .inl ⟨failure, rfl⟩
      · next plan required target hplan =>
          split
          · exact .inl ⟨_, rfl⟩
          · dsimp only
            split
            · exact .inl ⟨_, rfl⟩
            · unfold rollbackPlan at hplan
              split at hplan
              · cases hplan
              · next hrange =>
                  split at hplan
                  · cases hplan
                  · next found hfound =>
                      cases hplan
                      exact .inr ⟨loaded, target, hload, hfound, Nat.not_lt.mp (not_or.mp hrange).1, rfl⟩

/-- **Whatever is asked of a store, its lineage is kept.** -/
theorem Kept.respond (hlawful : codec.Lawful) {store : Store α D} (hkept : Kept codec storeId store)
    (request : Request α D) : Kept codec storeId (Sgos.respond codec storeId store request).1 := by
  cases request with
  | transact input => exact hkept.transact input rfl
  | restore value confirmation =>
      change Kept codec storeId (restore codec storeId store value confirmation).1
      rcases restore_cases hlawful hkept value confirmation with ⟨failure, heq⟩ | ⟨loaded, replayed, hload, h, rfl⟩
      · rw [heq]
        exact hkept
      · obtain ⟨after, heq, hafter, -⟩ := restore_spec hlawful hkept h hload
        rw [heq]
        exact hafter
  | stopped value confirmation written =>
      unfold Sgos.respond
      dsimp only
      split
      · exact hkept
      · next hplan =>
          obtain ⟨loaded, replayed, -, hextends, -⟩ := (planRestore_eq_ok hlawful hkept).mp hplan
          split
          · exact hkept
          · exact (hextends.stopped hkept written).1
  | rollback revision confirmation =>
      change Kept codec storeId (rollback codec storeId store revision confirmation).1
      rcases rollback_input store revision confirmation with
        ⟨failure, heq⟩ | ⟨_, _, -, -, hsafe, heq⟩
      · rw [heq]
        exact hkept
      · rw [heq]
        exact hkept.transact _ (decide_eq_true hsafe)

end Runs

end Sgos

end SingularityFlow
