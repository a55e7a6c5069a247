/-
# What an operational store accepts, it reads back

A filesystem store reads its events from their files whenever it is asked.  An event
is checked before it is written, and its file has one line break more than what is
checked: so an event of exactly 8 MiB is accepted, and no operation reads the store
again (`written_unread`).  As long as no transaction makes an event of that size,
the store can be loaded behind every operation, its head is what the operation
returned (`answer_loaded`), and that is the fold of all of its changes
(`entries_foldEvents`).

The memory profile takes the same operations, with the same answers, as long as the
files are not too many (`performAll_agree`).
-/
import SingularityFlow.Sgos.OperationalExact

namespace SingularityFlow

open Ecma

namespace Sgos

section Reads

variable {α D : Type} [DecidableEq α] [DecidableEq D] {codec : Codec α D} {storeId : Text}

/-! ## The fold of the changes -/

/-- The entries that the changes of events lead to, those of each event by their keys. -/
def foldEvents (entries : Entries α) (events : List (StoreEvent α D)) : Entries α :=
  events.foldl (fun entries value =>
    (value.changes.insertionSort fun left right => LeUnits left.key right.key).foldl applyChange entries) entries

omit [DecidableEq α] in
theorem replayFrom_entries {events : List (StoreEvent α D)} : ∀ {before : StoreState α D}
    {states : List (StoreState α D)}, replayFrom codec before events = .ok states →
      (states.getLastD before).entries = foldEvents before.entries events := by
  induction events with
  | nil =>
      intro before states h
      cases h
      rfl
  | cons value events ih =>
      intro before states h
      obtain ⟨next, rest, hadvance, hrest, rfl⟩ := replayFrom_cons.mp h
      obtain ⟨changes, entries, hvalid, happly, -, rfl⟩ := advance_eq_ok.mp hadvance
      obtain ⟨-, -, hsorted, -⟩ := normalizedChanges_eq_ok.mp (validateEvent_eq_ok.mp hvalid).2.2.2
      obtain ⟨hentries, -, -⟩ := applyChanges_eq_ok.mp happly
      rw [List.getLastD_cons, ih hrest, foldEvents, foldEvents, List.foldl_cons, ← hsorted, ← hentries]
      rfl

omit [DecidableEq α] in
/-- **The head of a lineage is the fold of its changes over the empty state.** -/
theorem entries_foldEvents {loaded : Loaded α D} (h : loaded.Coherent codec storeId) :
    loaded.head.entries = foldEvents ∅ loaded.events := by
  obtain ⟨states, hstates, hloaded⟩ := replay_eq_ok.mp h
  rw [hloaded]
  exact replayFrom_entries hstates

/-! ## Events of one size -/

/-- These changes do not make an event of exactly the size that is accepted last. -/
def OffLimit (codec : Codec α D) (head : StoreState α D) (changes : List (Change α))
    (operation : StoreOperation) : Prop :=
  ∀ checked entries, normalizedChanges codec head.entries changes = .ok checked →
    applyChanges codec head.entries checked = .ok entries →
      codec.eventBytes (eventOf codec head operation checked entries) ≠ maximumBytes

/-- What is asked for does not make such an event. -/
def Request.OffLimit (codec : Codec α D) (storeId : Text) (store : Store α D) : Request α D → Prop
  | .transact input => ∀ loaded, load codec storeId store = .ok loaded →
      Sgos.OffLimit codec loaded.head input.changes .transact
  | .rollback revision _ => ∀ loaded target, load codec storeId store = .ok loaded →
      loaded.states[revision]? = some target →
        Sgos.OffLimit codec loaded.head (changesBack loaded.head.entries target.entries) (.rollback revision)
  | .restore _ _ | .stopped _ _ _ => True

omit [DecidableEq α] in
/-- A store that takes an event of another size can be loaded, and has the new head. -/
theorem load_publish {store : Store α D} (hkept : Kept codec storeId store) {loaded : Loaded α D}
    (hload : load codec storeId store = .ok loaded) {input : Transaction α D} {operation : StoreOperation}
    (hsafe : operation.safe = true) (hoff : OffLimit codec loaded.head input.changes operation)
    {value : StoreEvent α D} {next : StoreState α D}
    (h : transactLoaded codec store.full loaded.head input operation = .ok (value, next)) :
    load codec storeId (store.publish value next)
      = .ok ⟨loaded.events ++ [value], next, loaded.states ++ [next]⟩ := by
  obtain ⟨-, hfull, checked, entries, hchecked, happly, hvalue, hbytes, -⟩ := transactLoaded_eq_ok.mp h
  have hadvance := advance_of_transact hsafe h
  obtain ⟨hcoherent, hevents⟩ := hkept.of_load hload
  cases store with
  | memory kept =>
      cases hload
      rfl
  | files live events =>
      obtain ⟨hlength, hread, -⟩ := load_files_eq_ok.mp hload
      have hroom : events.length < maximumEvents := Nat.not_le.mp (of_decide_eq_false hfull)
      have hsize : codec.eventBytes value ≠ maximumBytes := hvalue ▸ hoff checked entries hchecked happly
      obtain rfl : loaded.events = events := hevents
      refine load_files_eq_ok.mpr ⟨?_, ?_, hcoherent.append hadvance⟩
      · rw [List.length_append, List.length_singleton]
        exact hroom
      · rw [List.all_append, hread, Bool.true_and, List.all_cons, List.all_nil, Bool.and_true, readable]
        exact decide_eq_true (by omega)

/-- What an operation returns is the head that is loaded behind it; a store that can be
loaded still can be. -/
structure Answered (codec : Codec α D) (storeId : Text) (after : Store α D)
    (answer : Option (Except Failure (StoreState α D))) : Prop where
  loads : ∃ loaded, load codec storeId after = .ok loaded
  head : ∀ state, answer = some (.ok state) → ∀ loaded, load codec storeId after = .ok loaded →
    loaded.head = state

omit [DecidableEq α] in
theorem answered_transact {store : Store α D} (hkept : Kept codec storeId store) {loaded : Loaded α D}
    (hload : load codec storeId store = .ok loaded) {input : Transaction α D} {operation : StoreOperation}
    (hsafe : operation.safe = true) (hoff : OffLimit codec loaded.head input.changes operation) :
    Answered codec storeId (transact codec storeId store input operation).1
      (some (transact codec storeId store input operation).2) := by
  rcases transact_cases store input operation with ⟨failure, heq⟩ | ⟨found, value, next, hfound, hvalue, heq⟩
  · rw [heq]
    exact ⟨⟨loaded, hload⟩, fun _ h => by cases h⟩
  · rw [hload] at hfound
    obtain rfl := Except.ok.inj hfound
    have hafter := load_publish hkept hload hsafe hoff hvalue
    rw [heq]
    refine ⟨⟨_, hafter⟩, fun state hstate loaded hloaded => ?_⟩
    cases hstate
    rw [hafter] at hloaded
    cases hloaded
    rfl

/-- **What a store accepts it reads back**, and it has the state that was returned. -/
theorem answer_loaded (hlawful : codec.Lawful) {store : Store α D} (hkept : Kept codec storeId store)
    {loaded : Loaded α D} (hload : load codec storeId store = .ok loaded) {request : Request α D}
    (hoff : request.OffLimit codec storeId store) :
    Answered codec storeId (respond codec storeId store request).1 (respond codec storeId store request).2 := by
  have hsame : ∀ failure, Answered codec storeId store (some (.error failure)) := fun failure =>
    ⟨⟨loaded, hload⟩, fun _ h => by cases h⟩
  cases request with
  | transact input => exact answered_transact hkept hload rfl (hoff loaded hload)
  | restore value confirmation =>
      change Answered codec storeId (restore codec storeId store value confirmation).1
        (some (restore codec storeId store value confirmation).2)
      rcases restore_cases hlawful hkept value confirmation with ⟨failure, heq⟩ | ⟨found, replayed, hfound, h, rfl⟩
      · rw [heq]
        exact hsame failure
      · obtain ⟨after, heq, -, hafter, -, hhead⟩ := restore_spec hlawful hkept h hfound
        rw [heq]
        refine ⟨⟨replayed, hafter⟩, fun state hstate loaded hloaded => ?_⟩
        cases hstate
        rw [hafter] at hloaded
        cases hloaded
        exact hhead
  | stopped value confirmation written =>
      unfold respond
      dsimp only
      split
      · next failure _ => exact hsame failure
      · next hplan =>
          split
          · next hstale =>
              rcases restore_cases hlawful hkept value confirmation with
                ⟨failure, heq⟩ | ⟨found, replayed, hfound, h, rfl⟩
              · rw [heq]
                exact hsame failure
              · obtain ⟨_, _, hfound', -, hplanned⟩ := (planRestore_eq_ok hlawful hkept).mp hplan
                rw [hfound] at hfound'
                cases hfound'
                exact absurd (congrArg Prod.snd hplanned).symm hstale
          · obtain ⟨_, replayed, -, hextends, -⟩ := (planRestore_eq_ok hlawful hkept).mp hplan
            obtain ⟨hstopped, hagain⟩ := hextends.stopped hkept written
            obtain ⟨part, hpart, -⟩ := hagain.load hlawful hstopped
            exact ⟨⟨part, hpart⟩, nofun⟩
  | rollback revision confirmation =>
      change Answered codec storeId (rollback codec storeId store revision confirmation).1
        (some (rollback codec storeId store revision confirmation).2)
      rcases rollback_input store revision confirmation with
        ⟨failure, heq⟩ | ⟨found, target, hfound, htarget, hsafe, heq⟩
      · rw [heq]
        exact hsame failure
      · rw [heq]
        exact answered_transact hkept hfound (decide_eq_true hsafe) (hoff found target hfound htarget)

/-- The filesystem stores that are reached without an event of that size. -/
inductive ReachedOff (codec : Codec α D) (storeId : Text) (live : Bool) : Store α D → Prop
  | empty : ReachedOff codec storeId live (.files live [])
  | respond {store : Store α D} (request : Request α D) : ReachedOff codec storeId live store →
      request.OffLimit codec storeId store →
        ReachedOff codec storeId live (Sgos.respond codec storeId store request).1

theorem ReachedOff.loads (hlawful : codec.Lawful) {live : Bool} {store : Store α D}
    (h : ReachedOff codec storeId live store) :
    Kept codec storeId store ∧ ∃ loaded, load codec storeId store = .ok loaded := by
  induction h with
  | empty => exact ⟨⟨Nat.zero_le _, _, rfl⟩, _, rfl⟩
  | respond request _ hoff ih =>
      obtain ⟨hkept, loaded, hload⟩ := ih
      exact ⟨hkept.respond hlawful request, (answer_loaded hlawful hkept hload hoff).loads⟩

/-! ## The two profiles -/

/-- What is asked of a store of either profile: a rollback is planned and confirmed. -/
inductive Operation (α D : Type) where
  | transact (input : Transaction α D)
  | rollback (revision : Nat)

def perform (codec : Codec α D) (storeId : Text) (store : Store α D) :
    Operation α D → Store α D × Except Failure (StoreState α D)
  | .transact input => transact codec storeId store input .transact
  | .rollback revision =>
      match planRollback codec storeId store revision with
      | .error failure => (store, .error failure)
      | .ok plan => rollback codec storeId store revision plan.2

/-- Operations one after another, and their answers. -/
def performAll (codec : Codec α D) (storeId : Text) :
    Store α D → List (Operation α D) → Store α D × List (Except Failure (StoreState α D))
  | store, [] => (store, [])
  | store, operation :: operations =>
      let (after, answer) := perform codec storeId store operation
      let (last, answers) := performAll codec storeId after operations
      (last, answer :: answers)

/-- The request that an operation is, whatever confirms it. -/
def Operation.OffLimit (codec : Codec α D) (storeId : Text) (store : Store α D) : Operation α D → Prop
  | .transact input => (Request.transact input).OffLimit codec storeId store
  | .rollback revision => ∀ confirmation, (Request.rollback revision confirmation).OffLimit codec storeId store

/-- Operations within the ceiling of events, none of which makes an event of that size. -/
def Steady (codec : Codec α D) (storeId : Text) : Store α D → List (Operation α D) → Prop
  | _, [] => True
  | store, operation :: operations =>
      store.full = false ∧ operation.OffLimit codec storeId store ∧
        Steady codec storeId (perform codec storeId store operation).1 operations

/-- What an operation makes of what is loaded. -/
def performLoaded (codec : Codec α D) (full : Bool) (loaded : Loaded α D) :
    Operation α D → Except Failure (StoreEvent α D × StoreState α D)
  | .transact input => transactLoaded codec full loaded.head input .transact
  | .rollback revision =>
      if maximumInteger < revision ∨ loaded.head.revision ≤ revision then
        .error (rollbackInvalid "Operational rollback revision must name an earlier retained state.")
      else
        match loaded.states[revision]? with
        | none => .error (.typeError (js "Cannot read properties of undefined (reading 'stateSha256')"))
        | some target =>
            if changesBack loaded.head.entries target.entries = [] then
              .error (rollbackInvalid "Operational rollback target has the same material state.")
            else
              transactLoaded codec full loaded.head ⟨loaded.head.revision, loaded.head.stateSha256,
                changesBack loaded.head.entries target.entries⟩ (.rollback revision)

/-- An operation is one on what is loaded. -/
theorem perform_loaded {store : Store α D} {loaded : Loaded α D} (hload : load codec storeId store = .ok loaded)
    (operation : Operation α D) : perform codec storeId store operation =
      match performLoaded codec store.full loaded operation with
      | .error failure => (store, .error failure)
      | .ok (value, next) => (store.publish value next, .ok next) := by
  cases operation with
  | transact input =>
      rw [perform, transact, hload]
      rfl
  | rollback revision =>
      rw [perform, performLoaded, planRollback, hload]
      dsimp only
      by_cases hrange : maximumInteger < revision ∨ loaded.head.revision ≤ revision
      · rw [rollbackPlan, if_pos hrange, if_pos hrange]
        rfl
      · rw [if_neg hrange]
        cases htarget : loaded.states[revision]? with
        | none =>
            rw [rollbackPlan, if_neg hrange, htarget]
            rfl
        | some target =>
            have hplan : ∃ plan, rollbackPlan codec storeId store loaded revision = .ok (plan, target) := by
              rw [rollbackPlan, if_neg hrange, htarget]
              exact ⟨_, rfl⟩
            obtain ⟨⟨plan, required⟩, hplan⟩ := hplan
            rw [hplan]
            change rollback codec storeId store revision required = _
            rw [rollback, hload]
            dsimp only
            rw [hplan]
            dsimp only
            rw [if_neg fun hne => hne rfl]
            by_cases hchanges : changesBack loaded.head.entries target.entries = []
            · rw [if_pos hchanges, if_pos hchanges]
            · rw [if_neg hchanges, if_neg hchanges]
              cases hvalue : transactLoaded codec store.full loaded.head ⟨loaded.head.revision,
                  loaded.head.stateSha256, changesBack loaded.head.entries target.entries⟩
                  (.rollback revision) with
              | error failure => simp only [transact, hload, hvalue]
              | ok made => simp only [transact, hload, hvalue]

/-- An event that an operation makes is one of a transaction that is off the limit. -/
theorem transaction_of_performLoaded {store : Store α D} {loaded : Loaded α D}
    (hload : load codec storeId store = .ok loaded) {full : Bool} {operation : Operation α D}
    (hoff : operation.OffLimit codec storeId store) {value : StoreEvent α D} {next : StoreState α D}
    (h : performLoaded codec full loaded operation = .ok (value, next)) :
    ∃ input kind, StoreOperation.safe kind = true ∧ Sgos.OffLimit codec loaded.head input.changes kind ∧
      transactLoaded codec full loaded.head input kind = .ok (value, next) := by
  cases operation with
  | transact input => exact ⟨input, .transact, rfl, hoff loaded hload, h⟩
  | rollback revision =>
      rw [performLoaded] at h
      split at h
      · cases h
      · next hrange =>
          split at h
          · cases h
          · next target htarget =>
              split at h
              · cases h
              · refine ⟨_, .rollback revision, decide_eq_true (Nat.not_lt.mp (not_or.mp hrange).1), ?_, h⟩
                exact hoff loaded.head.stateSha256 loaded target hload htarget

/-- **The memory profile answers as the filesystem does**, and reaches the same states. -/
theorem performAll_agree (operations : List (Operation α D)) : ∀ {store : Store α D} {loaded : Loaded α D},
    Kept codec storeId store → load codec storeId store = .ok loaded → Steady codec storeId store operations →
      (performAll codec storeId (.memory loaded) operations).2 = (performAll codec storeId store operations).2 ∧
      ∃ last, (performAll codec storeId (.memory loaded) operations).1 = .memory last ∧
        load codec storeId (performAll codec storeId store operations).1 = .ok last := by
  induction operations with
  | nil => exact fun _ hload _ => ⟨rfl, _, rfl, hload⟩
  | cons operation operations ih =>
      rintro store loaded hkept hload ⟨hroom, hoff, hsteady⟩
      have hfiles := perform_loaded hload operation
      have hkeptLoaded : load codec storeId (.memory loaded) = .ok loaded := rfl
      have hmemory := perform_loaded hkeptLoaded operation
      rw [hroom] at hfiles
      rw [show (Store.memory loaded : Store α D).full = false from rfl] at hmemory
      cases hmade : performLoaded codec false loaded operation with
      | error failure =>
          rw [hmade] at hfiles hmemory
          rw [hfiles] at hsteady
          obtain ⟨hanswers, hlast⟩ := ih hkept hload hsteady
          rw [performAll, performAll, hfiles, hmemory]
          exact ⟨congrArg (Except.error failure :: ·) hanswers, hlast⟩
      | ok made =>
          obtain ⟨value, next⟩ := made
          rw [hmade] at hfiles hmemory
          rw [hfiles] at hsteady
          obtain ⟨input, kind, hsafe, hlimit, htransact⟩ := transaction_of_performLoaded hload hoff hmade
          rw [← hroom] at htransact
          have hafter := load_publish hkept hload hsafe hlimit htransact
          have hkeptAfter := hkept.publish hload hroom (advance_of_transact hsafe htransact)
          obtain ⟨hanswers, hlast⟩ := ih hkeptAfter hafter hsteady
          rw [performAll, performAll, hfiles, hmemory]
          exact ⟨congrArg (Except.ok next :: ·) hanswers, hlast⟩

/-! ## Every run -/

/-- **What a store accepts it reads back**: it can be loaded, its head is the fold of its
changes, every operation leaves the state that it returned, and the memory profile
answers the same operations in the same way. -/
theorem accepted_read_back (hlawful : codec.Lawful) {live : Bool} {store : Store α D}
    (h : ReachedOff codec storeId live store) :
    (∃ loaded, load codec storeId store = .ok loaded ∧ loaded.events = store.events ∧
      loaded.head.entries = foldEvents ∅ store.events) ∧
    (∀ request : Request α D, request.OffLimit codec storeId store →
      Answered codec storeId (respond codec storeId store request).1 (respond codec storeId store request).2) ∧
    ∀ operations, Steady codec storeId (.files live []) operations →
      (performAll codec storeId (Store.empty codec storeId .memoryReplay) operations).2
        = (performAll codec storeId (.files live []) operations).2 ∧
      ∃ last, (performAll codec storeId (Store.empty codec storeId .memoryReplay) operations).1 = .memory last ∧
        load codec storeId (performAll codec storeId (.files live []) operations).1 = .ok last := by
  obtain ⟨hkept, loaded, hload⟩ := h.loads hlawful
  obtain ⟨hcoherent, hevents⟩ := hkept.of_load hload
  refine ⟨⟨loaded, hload, hevents, ?_⟩, fun request hoff => answer_loaded hlawful hkept hload hoff, ?_⟩
  · rw [← hevents]
    exact entries_foldEvents hcoherent
  · intro operations hsteady
    exact performAll_agree operations ⟨Nat.zero_le _, _, rfl⟩ rfl hsteady

/-! ## Updates that compete -/

/-- **Nothing is taken out of a lineage**, whatever is asked. -/
theorem respond_appends (hlawful : codec.Lawful) {store : Store α D} (hkept : Kept codec storeId store)
    (request : Request α D) : store.events <+: (respond codec storeId store request).1.events := by
  have htransact : ∀ input operation,
      store.events <+: (transact codec storeId store input operation).1.events := by
    intro input operation
    rcases transact_cases store input operation with ⟨_, heq⟩ | ⟨_, _, _, _, _, heq⟩
    · rw [heq]
    · rw [heq]
      cases store <;> exact List.prefix_append _ _
  cases request with
  | transact input => exact htransact _ _
  | restore value confirmation =>
      change store.events <+: (restore codec storeId store value confirmation).1.events
      rcases restore_cases hlawful hkept value confirmation with ⟨_, heq⟩ | ⟨_, _, hload, hextends, rfl⟩
      · rw [heq]
      · obtain ⟨after, heq, hafter, hloaded, hevents, -⟩ := restore_spec hlawful hkept hextends hload
        rw [heq, ← (hafter.of_load hloaded).2, hevents]
        exact hextends.lineage
  | stopped value confirmation written =>
      unfold respond
      dsimp only
      split
      · exact List.prefix_rfl
      · split
        · exact List.prefix_rfl
        · cases store with
          | memory => exact List.prefix_rfl
          | files => exact List.prefix_append _ _
  | rollback revision confirmation =>
      change store.events <+: (rollback codec storeId store revision confirmation).1.events
      rcases rollback_input store revision confirmation with ⟨_, heq⟩ | ⟨_, _, -, -, -, heq⟩
      · rw [heq]
      · rw [heq]
        exact htransact _ _

/-- The store behind requests that are answered in turn. -/
def behind (codec : Codec α D) (storeId : Text) (store : Store α D) (requests : List (Request α D)) :
    Store α D :=
  requests.foldl (fun store request => (respond codec storeId store request).1) store

theorem behind_appends (hlawful : codec.Lawful) (requests : List (Request α D)) : ∀ {store : Store α D},
    Kept codec storeId store → Kept codec storeId (behind codec storeId store requests) ∧
      store.events <+: (behind codec storeId store requests).events := by
  induction requests with
  | nil => exact fun hkept => ⟨hkept, List.prefix_rfl⟩
  | cons request rest ih =>
      intro store hkept
      obtain ⟨hlater, hmore⟩ := ih (hkept.respond hlawful request)
      exact ⟨hlater, (respond_appends hlawful hkept request).trans hmore⟩

/-- **No update is lost.**  A transaction that is accepted stays in the lineage, and none
that was made for the same revision is accepted behind it, whatever is asked in between. -/
theorem no_lost_update (hlawful : codec.Lawful) {store : Store α D} (h : Reached codec storeId store)
    {input late : Transaction α D} {next : StoreState α D}
    (haccepted : (respond codec storeId store (.transact input)).2 = some (.ok next))
    (hlate : late.expectedRevision = input.expectedRevision) (requests : List (Request α D)) :
    let after := (respond codec storeId store (.transact input)).1
    let later := behind codec storeId after requests
    (∃ value, after.events = store.events ++ [value]) ∧
      after.events <+: later.events ∧
      ∃ failure, respond codec storeId later (.transact late) = (later, some (.error failure)) := by
  have hkept := kept_of_reached hlawful h
  obtain ⟨hlater, hmore⟩ := behind_appends hlawful requests (hkept.respond hlawful (.transact input))
  rcases transact_cases store input .transact with ⟨_, heq⟩ | ⟨loaded, value, made, hload, hmade, heq⟩
  · unfold respond at haccepted
    dsimp only at haccepted
    rw [heq] at haccepted
    cases haccepted
  have hevents : (respond codec storeId store (.transact input)).1.events = store.events ++ [value] := by
    change (transact codec storeId store input .transact).1.events = _
    rw [heq]
    cases store <;> rfl
  obtain ⟨⟨hrevision, -⟩, -⟩ := transactLoaded_eq_ok.mp hmade
  obtain ⟨hcoherent, hlineage⟩ := hkept.of_load hload
  refine ⟨⟨value, hevents⟩, hmore, ?_⟩
  rcases transact_cases (behind codec storeId (respond codec storeId store (.transact input)).1 requests)
    late .transact with ⟨failure, hrefused⟩ | ⟨found, _, _, hfound, hagain, -⟩
  · exact ⟨failure, congrArg (Prod.map id some) hrefused⟩
  · -- the revision counts the events, and there is one more
    obtain ⟨⟨hsame, -⟩, -⟩ := transactLoaded_eq_ok.mp hagain
    obtain ⟨hcoherent', hlineage'⟩ := hlater.of_load hfound
    have hlength := hmore.length_le
    rw [hevents, List.length_append, List.length_singleton, ← hlineage', ← (hcoherent'.sound hlawful).revision,
      ← hsame, hlate, hrevision, (hcoherent.sound hlawful).revision, hlineage] at hlength
    exact absurd hlength (Nat.not_succ_le_self _)

end Reads

/-! ## An event that is not read -/

/-- A filesystem store that one key is put into, with a value of some bytes. -/
def Sized.filed (bytes : Nat) : Store Nat Digest × Option (Except Failure (StoreState Nat Digest)) :=
  respond codec (js "ops") (.files false [])
    (.transact ⟨0, (firstState codec (js "ops")).stateSha256, [.put (js "blob") bytes]⟩)

theorem Sized.filed_reached : ReachedOff codec (js "ops") false (filed 5).1 := by
  refine .respond _ .empty fun loaded hload checked entries hchecked _ => ?_
  obtain ⟨-, -, rfl, -⟩ := normalizedChanges_eq_ok.mp hchecked
  change 4 + 5 + 32 + 0 + 600 ≠ 8 * 1024 * 1024
  decide

/-- A store behind a transaction that is far from the limit can be loaded. -/
theorem accepted_read_back_filed : ∃ loaded, load Sized.codec (js "ops") (Sized.filed 5).1 = .ok loaded ∧
    loaded.events = (Sized.filed 5).1.events ∧ loaded.head.entries = foldEvents ∅ (Sized.filed 5).1.events :=
  (accepted_read_back Sized.lawful Sized.filed_reached).1

/-- A value that makes an event of exactly 8 MiB: it is accepted, and the store cannot be
read behind it. -/
theorem filed_unread : ((Sized.filed 8387972).2.bind Except.toOption).isSome = true ∧
    load Sized.codec (js "ops") (Sized.filed 8387972).1
      = .error (corrupt "Operational event is not a bounded regular file.") := by
  decide +kernel

/-- Behind a transaction that was accepted, and a look back, the same one is refused. -/
theorem no_lost_update_filed :
    let again : Transaction Nat Digest :=
      ⟨0, (firstState Sized.codec (js "ops")).stateSha256, [.put (js "blob") 5]⟩
    let later := behind Sized.codec (js "ops") (Sized.filed 5).1 [.rollback 0 again.expectedStateSha256]
    ∃ failure, respond Sized.codec (js "ops") later (.transact again) = (later, some (.error failure)) := by
  have hsome : ((Sized.filed 5).2.bind Except.toOption).isSome = true := by decide +kernel
  obtain ⟨next, hnext⟩ := Option.isSome_iff_exists.mp hsome
  obtain ⟨answer, haccepted, hanswer⟩ := Option.bind_eq_some_iff.mp hnext
  cases answer with
  | error failure => cases hanswer
  | ok made => exact (no_lost_update Sized.lawful (.empty .filesystemReplay) haccepted rfl _).2.2

end Sgos

end SingularityFlow
