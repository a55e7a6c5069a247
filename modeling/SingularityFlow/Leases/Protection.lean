/-
# What protects a lease from being reaped

The owner of a lease rewrites its record in place: it truncates the file, writes
the record from the start and flushes it.  Any number of its calls may be under
way at once, each call of the file system is a step, and the process may crash
between any two.  A call that fails stops where it stands.

After `protect` has returned, a file with something in it begins with a record
that is quarantined, so that only evidence of the deaths of its processes makes
the lease stale.  Between a truncation and the write behind it the file is
empty, and an empty file is judged by its age: `stale_on_evidence_iff` says that
this is all that age can do, and `stale_with_live_child` is a run that ends there.
-/
import SingularityFlow.Leases.CacheOwner
import SingularityFlow.Lib.Run

namespace SingularityFlow

open Ecma Value

namespace Leases

/-! ## The owner's calls -/

/-- What a record is written for. -/
inductive Purpose where
  | acquire | retain | protect
deriving DecidableEq

/-- Where a call stands. -/
inductive Phase where
  | idle
  | opening
  | stat
  | check (purpose : Purpose) (value : CacheOwner)
  | compare (purpose : Purpose) (value : CacheOwner) (observed : Option Text)
  | truncate (purpose : Purpose) (value : CacheOwner)
  | write (purpose : Purpose) (value : CacheOwner)
  | sync (purpose : Purpose) (value : CacheOwner)
  | onReclaimed
  | acquired
  | releaseCheck (thrown : Bool)
  | releaseCompare (thrown : Bool) (observed : Option Text)
  | remove (thrown : Bool)
  | finish (thrown removed : Bool)
  | close (thrown removed : Bool)
  | ended (thrown result : Bool)

/-- What the calls of the owner share. -/
structure Lease where
  /-- The file at the pathname, once it is created and until it is removed. -/
  file : Option Bytes
  owner : CacheOwner
  /-- The record that `frame.bytes` holds. -/
  bytes : Option CacheOwner
  isProtected : Bool
  releasing : Bool
  active : Bool
  closed : Bool
  /-- The record of the last write. -/
  recorded : Option CacheOwner
  /-- Whether a call of `protect` has returned. -/
  protectReturned : Bool

/-- How the file system answers a call; a read that fails is caught, and so is
one of a file that changed or is not the owner's. -/
inductive Answer where
  | done | fails
deriving DecidableEq

namespace Lease

/-- `readCacheLease`, where its errors are caught. -/
def read (lease : Lease) (answer : Answer) : Option Text :=
  match answer, lease.file with
  | .done, some content => if content.length > leaseBytes then none else decodeFatal content
  | _, _ => none

/-- The comparison of `ownsExactFrame`. -/
def owns (lease : Lease) (observed : Option Text) : Bool :=
  observed.isSome && observed = lease.bytes.map CacheOwner.text

/-- A write at the start of the file. -/
def overwrite (bytes content : Bytes) : Bytes := bytes ++ content.drop bytes.length

/-- Where an error of `writeOwner` leads: an acquisition releases what it has. -/
def failing (lease : Lease) : Purpose → Lease × Phase
  | .acquire => ({ lease with releasing := true }, .releaseCheck true)
  | .retain | .protect => (lease, .ended true false)

/-- The next call of the file system. -/
def advance (lease : Lease) (answer : Answer) : Phase → Option (Lease × Phase)
  | .opening =>
      match answer, lease.file with
      | .done, none => some ({ lease with file := some [] }, .stat)
      | _, _ => some (lease, .ended true false)
  | .stat =>
      match answer with
      | .done => some (lease, .truncate .acquire lease.owner)
      | .fails => some (lease, .close true false)
  | .check purpose value => some (lease, .compare purpose value (lease.read answer))
  | .compare purpose value observed =>
      if lease.owns observed then some (lease, .truncate purpose value)
      else some (lease, .ended true false)
  | .truncate purpose value =>
      if answer = .done ∧ !lease.closed then
        some ({ lease with file := lease.file.map fun _ => [] }, .write purpose value)
      else some (lease.failing purpose)
  | .write purpose value =>
      if answer = .done ∧ !lease.closed then
        some ({ lease with file := lease.file.map (overwrite value.bytes), recorded := some value },
          .sync purpose value)
      else some (lease.failing purpose)
  | .sync purpose value =>
      if answer = .done ∧ !lease.closed then
        let lease := { lease with bytes := some value, owner := value }
        match purpose with
        | .acquire => some (lease, .onReclaimed)
        | .retain => some (lease, .ended false true)
        | .protect => some ({ lease with protectReturned := true }, .ended false true)
      else some (lease.failing purpose)
  | .onReclaimed =>
      match answer with
      | .done => some (lease, .acquired)
      | .fails => some (lease.failing .acquire)
  | .releaseCheck thrown => some (lease, .releaseCompare thrown (lease.read answer))
  | .releaseCompare thrown observed =>
      if lease.owns observed then some (lease, .remove thrown)
      else some (lease, .finish thrown false)
  | .remove thrown =>
      match answer with
      | .done => some ({ lease with file := none }, .finish thrown true)
      | .fails => some (lease, .finish true false)
  | .finish thrown removed => some ({ lease with active := false }, .close thrown removed)
  | .close thrown removed => some ({ lease with closed := true }, .ended thrown removed)
  | .idle | .acquired | .ended .. => none

/-- The begin of `retainQuarantine`, up to its first call of the file system. -/
def retain (lease : Lease) (purpose : Purpose) (childPids unknownChildren : Option Value)
    (heartbeatAt : Text) : Lease × Phase :=
  match pids? childPids, flag? unknownChildren with
  | some children, some unknown =>
      let value := {
        lease.owner with
        heartbeatAt, quarantine := some true, childPids := some (children.getD [])
        unknownChildren := some (unknown.getD true) }
      let lease := { lease with isProtected := true }
      if !lease.releasing && lease.active then (lease, .check purpose value)
      else (lease, .ended true false)
  | _, _ => (lease, .ended true false)

/-- The begin of `release`. -/
def release (lease : Lease) (cleanupConfirmed : Bool) : Lease × Phase :=
  if !lease.active || lease.releasing then (lease, .ended false false)
  else
    ({ lease with releasing := true },
      if !lease.isProtected || cleanupConfirmed then .releaseCheck false else .finish false false)

end Lease

/-! ## The owner's process -/

structure World (I : Type) where
  lease : Lease
  acquisition : Phase
  calls : I → Phase
  crashed : Bool

inductive Action (I : Type) where
  | acquisition (answer : Answer)
  | retainQuarantine (i : I) (childPids unknownChildren : Option Value) (heartbeatAt : Text)
  | protect (i : I) (heartbeatAt : Text)
  | release (i : I) (cleanupConfirmed : Bool)
  | call (i : I) (answer : Answer)
  | crash

/-- The owner as `acquireFileLease` makes it. -/
def newOwner (pid : Pid) (host nonce createdAt heartbeatAt : Text) : CacheOwner where
  pid
  host
  nonce
  createdAt
  heartbeatAt
  quarantine := none
  childPids := none
  unknownChildren := none

section Steps

variable {I : Type} [DecidableEq I]

/-- Before the file is opened. -/
def start (pid : Pid) (host nonce createdAt heartbeatAt : Text) : World I where
  lease := {
    file := none, owner := newOwner pid host nonce createdAt heartbeatAt, bytes := none
    isProtected := false, releasing := false, active := true, closed := false
    recorded := none, protectReturned := false }
  acquisition := .opening
  calls := fun _ => .idle
  crashed := false

/-- Call `i` has gone on. -/
def World.goto (w : World I) (i : I) (next : Lease × Phase) : World I :=
  { w with lease := next.1, calls := Function.update w.calls i next.2 }

/-- A call begins, on a lease that its acquisition returned. -/
def World.begin (w : World I) (i : I) (next : Lease × Phase) : Except Unit (World I) :=
  match w.acquisition, w.calls i with
  | .acquired, .idle => .ok (w.goto i next)
  | _, _ => .error ()

def act (w : World I) (action : Action I) : Except Unit (World I) :=
  if w.crashed then .error ()
  else
    match action with
    | .acquisition answer =>
        match w.lease.advance answer w.acquisition with
        | some next => .ok { w with lease := next.1, acquisition := next.2 }
        | none => .error ()
    | .retainQuarantine i childPids unknownChildren heartbeatAt =>
        w.begin i (w.lease.retain .retain childPids unknownChildren heartbeatAt)
    | .protect i heartbeatAt =>
        w.begin i (w.lease.retain .protect none (some (.bool true)) heartbeatAt)
    | .release i cleanupConfirmed => w.begin i (w.lease.release cleanupConfirmed)
    | .call i answer =>
        match w.lease.advance answer (w.calls i) with
        | some next => .ok (w.goto i next)
        | none => .error ()
    | .crash => .ok { w with crashed := true }

@[simp] theorem goto_self (w : World I) (i : I) (next : Lease × Phase) :
    (w.goto i next).calls i = next.2 := by
  simp [World.goto]

theorem goto_of_ne (w : World I) {i j : I} (next : Lease × Phase) (h : j ≠ i) :
    (w.goto i next).calls j = w.calls j := by
  simp [World.goto, h]

end Steps

/-! ## What a step keeps -/

section Invariant

variable {pid : Pid} {host : Text}

/-- A record is one of the process. -/
def Of (pid : Pid) (host : Text) (owner : CacheOwner) : Prop := owner.pid = pid ∧ owner.host = host

/-- The last record written is quarantined. -/
def Lease.Quarantined (lease : Lease) : Prop :=
  ∃ record, lease.recorded = some record ∧ record.quarantine = some true

/-- Records are of the process, and a file that is not empty begins with the last. -/
structure LeaseOk (pid : Pid) (host : Text) (lease : Lease) : Prop where
  owner : Of pid host lease.owner
  recorded : ∀ record, lease.recorded = some record → Of pid host record
  content : ∀ content, lease.file = some content →
    content = [] ∨ ∃ record tail, lease.recorded = some record ∧ content = record.bytes ++ tail

/-- What a call writes: only an acquisition writes a record that is not quarantined. -/
def ValueOk (pid : Pid) (host : Text) (first : Bool) (purpose : Purpose) (value : CacheOwner) : Prop :=
  Of pid host value ∧
    if first then purpose = .acquire else purpose ≠ .acquire ∧ value.quarantine = some true

def PhaseOk (pid : Pid) (host : Text) (first : Bool) (lease : Lease) : Phase → Prop
  | .opening | .stat | .onReclaimed | .acquired => first = true
  | .check purpose value | .compare purpose value _ | .truncate purpose value
  | .write purpose value => ValueOk pid host first purpose value
  | .sync purpose value =>
      ValueOk pid host first purpose value ∧ (first = false → lease.Quarantined)
  | _ => True

/-- What a step of an acquisition or of another call leaves true of the lease. -/
structure Evolves (first : Bool) (lease lease' : Lease) : Prop where
  quarantined : first = false → lease.Quarantined → lease'.Quarantined
  protectReturned : lease'.protectReturned = true →
    lease.protectReturned = true ∨ first = false ∧ lease'.Quarantined

theorem Evolves.refl {first : Bool} {lease : Lease} : Evolves first lease lease :=
  ⟨fun _ h => h, .inl⟩

theorem LeaseOk.opened {lease : Lease} (h : LeaseOk pid host lease) :
    LeaseOk pid host { lease with file := some [] } :=
  ⟨h.owner, h.recorded, fun _ hcontent => .inl (Option.some.inj hcontent).symm⟩

theorem LeaseOk.truncated {lease : Lease} (h : LeaseOk pid host lease) :
    LeaseOk pid host { lease with file := lease.file.map fun _ => [] } := by
  refine ⟨h.owner, h.recorded, fun content hcontent => .inl ?_⟩
  obtain ⟨_, -, rfl⟩ := Option.map_eq_some_iff.mp hcontent
  rfl

theorem LeaseOk.written {lease : Lease} {value : CacheOwner} (h : LeaseOk pid host lease)
    (hvalue : Of pid host value) :
    LeaseOk pid host
      { lease with file := lease.file.map (Lease.overwrite value.bytes), recorded := some value } := by
  refine ⟨h.owner, fun record hrecord => ?_, fun content hcontent => .inr ?_⟩
  · obtain rfl := Option.some.inj hrecord
    exact hvalue
  · obtain ⟨old, -, rfl⟩ := Option.map_eq_some_iff.mp hcontent
    exact ⟨value, _, rfl, rfl⟩

theorem LeaseOk.removed {lease : Lease} (h : LeaseOk pid host lease) :
    LeaseOk pid host { lease with file := none } :=
  ⟨h.owner, h.recorded, fun _ hcontent => nomatch hcontent⟩

theorem failing_ok {first : Bool} {purpose : Purpose} {lease : Lease} {next : Lease × Phase}
    (h : lease.failing purpose = next) (hlease : LeaseOk pid host lease) :
    LeaseOk pid host next.1 ∧ PhaseOk pid host first next.1 next.2 ∧ Evolves first lease next.1 := by
  subst h
  cases purpose with
  | acquire => exact ⟨⟨hlease.owner, hlease.recorded, hlease.content⟩, trivial, fun _ h => h, .inl⟩
  | retain => exact ⟨hlease, trivial, .refl⟩
  | protect => exact ⟨hlease, trivial, .refl⟩

/-- **One call of the file system.** -/
theorem advance_ok {first : Bool} {lease : Lease} {answer : Answer} {phase : Phase}
    {next : Lease × Phase} (h : lease.advance answer phase = some next)
    (hlease : LeaseOk pid host lease) (hphase : PhaseOk pid host first lease phase) :
    LeaseOk pid host next.1 ∧ PhaseOk pid host first next.1 next.2 ∧ Evolves first lease next.1 := by
  cases phase with
  | idle => cases h
  | acquired => cases h
  | ended => cases h
  | opening =>
      cases hfile : lease.file with
      | none =>
          cases answer with
          | done =>
              simp only [Lease.advance, hfile] at h
              cases h
              exact ⟨hlease.opened, hphase, fun _ h => h, .inl⟩
          | fails =>
              cases h
              exact ⟨hlease, trivial, .refl⟩
      | some content =>
          simp only [Lease.advance, hfile] at h
          cases h
          exact ⟨hlease, trivial, .refl⟩
  | stat =>
      obtain rfl : first = true := hphase
      cases answer with
      | done =>
          cases h
          exact ⟨hlease, ⟨hlease.owner, rfl⟩, .refl⟩
      | fails =>
          cases h
          exact ⟨hlease, trivial, .refl⟩
  | check purpose value =>
      cases h
      exact ⟨hlease, hphase, .refl⟩
  | compare purpose value observed =>
      rw [Lease.advance] at h
      split at h
      · cases h
        exact ⟨hlease, hphase, .refl⟩
      · cases h
        exact ⟨hlease, trivial, .refl⟩
  | truncate purpose value =>
      rw [Lease.advance] at h
      split at h
      · cases h
        exact ⟨hlease.truncated, hphase, fun _ h => h, .inl⟩
      · exact failing_ok (Option.some.inj h) hlease
  | write purpose value =>
      rw [Lease.advance] at h
      split at h
      · cases h
        have hquarantined : first = false →
            Lease.Quarantined
              { lease with
                file := lease.file.map (Lease.overwrite value.bytes), recorded := some value } := by
          rintro rfl
          exact ⟨value, rfl, hphase.2.2⟩
        exact ⟨hlease.written hphase.1, ⟨hphase, hquarantined⟩, fun hf _ => hquarantined hf, .inl⟩
      · exact failing_ok (Option.some.inj h) hlease
  | sync purpose value =>
      obtain ⟨hvalue, hquarantined⟩ := hphase
      rw [Lease.advance] at h
      split at h
      · have hlease' : LeaseOk pid host { lease with bytes := some value, owner := value } :=
          ⟨hvalue.1, hlease.recorded, hlease.content⟩
        cases first with
        | true =>
            obtain rfl : purpose = .acquire := hvalue.2
            cases h
            exact ⟨hlease', rfl, fun _ h => h, .inl⟩
        | false =>
            cases purpose with
            | acquire => exact absurd rfl hvalue.2.1
            | retain =>
                cases h
                exact ⟨hlease', trivial, fun _ h => h, .inl⟩
            | protect =>
                cases h
                exact ⟨⟨hvalue.1, hlease.recorded, hlease.content⟩, trivial, fun _ h => h,
                  fun _ => .inr ⟨rfl, hquarantined rfl⟩⟩
      · exact failing_ok (Option.some.inj h) hlease
  | onReclaimed =>
      cases answer with
      | done =>
          cases h
          exact ⟨hlease, hphase, .refl⟩
      | fails => exact failing_ok (Option.some.inj h) hlease
  | releaseCheck thrown =>
      cases h
      exact ⟨hlease, trivial, .refl⟩
  | releaseCompare thrown observed =>
      rw [Lease.advance] at h
      split at h <;> cases h
      · exact ⟨hlease, trivial, .refl⟩
      · exact ⟨hlease, trivial, .refl⟩
  | remove thrown =>
      cases answer with
      | done =>
          cases h
          exact ⟨hlease.removed, trivial, fun _ h => h, .inl⟩
      | fails =>
          cases h
          exact ⟨hlease, trivial, .refl⟩
  | finish thrown removed =>
      cases h
      exact ⟨⟨hlease.owner, hlease.recorded, hlease.content⟩, trivial, fun _ h => h, .inl⟩
  | close thrown removed =>
      cases h
      exact ⟨⟨hlease.owner, hlease.recorded, hlease.content⟩, trivial, fun _ h => h, .inl⟩

theorem retain_ok {purpose : Purpose} {lease : Lease} {childPids unknownChildren : Option Value}
    {heartbeatAt : Text} (hpurpose : purpose ≠ .acquire) (hlease : LeaseOk pid host lease) :
    let next := lease.retain purpose childPids unknownChildren heartbeatAt
    LeaseOk pid host next.1 ∧ PhaseOk pid host false next.1 next.2 ∧ Evolves false lease next.1 := by
  unfold Lease.retain
  split
  · dsimp only
    split
    · exact ⟨⟨hlease.owner, hlease.recorded, hlease.content⟩, ⟨hlease.owner, hpurpose, rfl⟩,
        fun _ h => h, .inl⟩
    · exact ⟨⟨hlease.owner, hlease.recorded, hlease.content⟩, trivial, fun _ h => h, .inl⟩
  · exact ⟨hlease, trivial, .refl⟩

theorem release_ok {lease : Lease} {cleanupConfirmed : Bool} (hlease : LeaseOk pid host lease) :
    let next := lease.release cleanupConfirmed
    LeaseOk pid host next.1 ∧ PhaseOk pid host false next.1 next.2 ∧ Evolves false lease next.1 := by
  unfold Lease.release
  split
  · exact ⟨hlease, trivial, .refl⟩
  · refine ⟨⟨hlease.owner, hlease.recorded, hlease.content⟩, ?_, fun _ h => h, .inl⟩
    dsimp only
    split <;> trivial

/-! ## Every run -/

variable {I : Type} [DecidableEq I] {nonce createdAt heartbeatAt : Text}

structure Inv (pid : Pid) (host : Text) (w : World I) : Prop where
  lease : LeaseOk pid host w.lease
  acquisition : PhaseOk pid host true w.lease w.acquisition
  calls : ∀ i, PhaseOk pid host false w.lease (w.calls i)
  /-- No call begins before the acquisition has returned. -/
  returned : w.acquisition = .acquired ∨ ∀ i, w.calls i = .idle
  quarantined : w.lease.protectReturned = true → w.acquisition = .acquired ∧ w.lease.Quarantined

theorem PhaseOk.evolves {first : Bool} {lease lease' : Lease} {phase : Phase}
    (h : PhaseOk pid host first lease phase) (hevolves : first = false → lease.Quarantined →
      lease'.Quarantined) : PhaseOk pid host first lease' phase := by
  cases phase with
  | sync purpose value => exact ⟨h.1, fun hf => hevolves hf (h.2 hf)⟩
  | _ => exact h

omit [DecidableEq I] in
theorem inv_start : Inv pid host (start pid host nonce createdAt heartbeatAt : World I) where
  lease := ⟨⟨rfl, rfl⟩, fun _ h => (nomatch h), fun _ h => (nomatch h)⟩
  acquisition := rfl
  calls _ := trivial
  returned := .inr fun _ => rfl
  quarantined h := nomatch h

theorem inv_goto {w : World I} {i : I} {next : Lease × Phase} (h : Inv pid host w)
    (hacquired : w.acquisition = .acquired)
    (hnext : LeaseOk pid host next.1 ∧ PhaseOk pid host false next.1 next.2
      ∧ Evolves false w.lease next.1) : Inv pid host (w.goto i next) := by
  obtain ⟨hlease, hphase, hevolves⟩ := hnext
  refine ⟨hlease, h.acquisition.evolves fun hf => (nomatch hf), fun j => ?_, .inl hacquired,
    fun hp => ⟨hacquired, ?_⟩⟩
  · by_cases hj : j = i
    · subst hj
      rw [goto_self]
      exact hphase
    · rw [goto_of_ne w next hj]
      exact (h.calls j).evolves hevolves.quarantined
  · rcases hevolves.protectReturned hp with hp | ⟨-, hq⟩
    · exact hevolves.quarantined rfl (h.quarantined hp).2
    · exact hq

theorem inv_begin {w w' : World I} {i : I} {next : Lease × Phase} (h : Inv pid host w)
    (hw : w.begin i next = .ok w')
    (hnext : LeaseOk pid host next.1 ∧ PhaseOk pid host false next.1 next.2
      ∧ Evolves false w.lease next.1) : Inv pid host w' := by
  unfold World.begin at hw
  split at hw
  · next hacquired hidle =>
      obtain rfl := Except.ok.inj hw
      exact inv_goto h hacquired hnext
  · cases hw

/-- **One step of the owner's process.** -/
theorem inv_act {w w' : World I} {action : Action I} (h : Inv pid host w)
    (hw : act w action = .ok w') : Inv pid host w' := by
  unfold act at hw
  split at hw
  · cases hw
  · cases action with
    | acquisition answer =>
        dsimp only at hw
        split at hw
        · next next hadvance =>
            obtain rfl := Except.ok.inj hw
            obtain ⟨hlease, hphase, hevolves⟩ := advance_ok hadvance h.lease h.acquisition
            rcases h.returned with hacquired | hidle
            · rw [hacquired] at hadvance
              cases hadvance
            · refine ⟨hlease, hphase, fun i => ?_, .inr hidle, fun hp => ?_⟩
              · show PhaseOk _ _ _ _ (w.calls i)
                rw [hidle i]
                trivial
              · rcases hevolves.protectReturned hp with hp | ⟨hf, -⟩
                · rw [(h.quarantined hp).1] at hadvance
                  cases hadvance
                · cases hf
        · cases hw
    | retainQuarantine i childPids unknownChildren heartbeatAt =>
        exact inv_begin h hw (retain_ok (by simp) h.lease)
    | protect i heartbeatAt => exact inv_begin h hw (retain_ok (by simp) h.lease)
    | release i cleanupConfirmed => exact inv_begin h hw (release_ok h.lease)
    | call i answer =>
        dsimp only at hw
        split at hw
        · next next hadvance =>
            obtain rfl := Except.ok.inj hw
            rcases h.returned with hacquired | hidle
            · exact inv_goto h hacquired (advance_ok hadvance h.lease (h.calls i))
            · rw [hidle i] at hadvance
              cases hadvance
        · cases hw
    | crash =>
        obtain rfl := Except.ok.inj hw
        exact ⟨h.lease, h.acquisition, h.calls, h.returned, h.quarantined⟩

theorem inv_run {past : List (World I × Action I)} {w : World I}
    (h : Run act (start pid host nonce createdAt heartbeatAt) past w) : Inv pid host w :=
  h.invariant (fun _ => Inv pid host) (fun _ _ => True) (fun _ _ => trivial) inv_start
    fun hinv _ hact => inv_act hinv hact

/-! ## What makes a lease stale -/

/-- All that may make a protected lease stale: its owner is dead, and so is each
child that the last record names, which says that there are no others. -/
structure DeathEvidence (pid : Pid) (host : Text) (lease : Lease) (reader : Reader) : Prop where
  host : reader.hostname = host
  dead : reader.dead pid = true
  recorded : ∃ record, lease.recorded = some record ∧ record.unknownChildren = some false
    ∧ ∀ p ∈ record.childPids.getD [], reader.dead p = true

/-- Whatever a reader with this option finds besides the content, a stale lease
has the evidence. -/
def StaleOnEvidence (pid : Pid) (host : Text) (lease : Lease) (content : Bytes)
    (legacyQuarantine : Bool) : Prop :=
  ∀ (reader : Reader) (state : LeaseState), reader.legacyQuarantine = legacyQuarantine →
    cacheFileLeaseState reader content = .ok state → state.stale = true →
    DeathEvidence pid host lease reader

/-- **A file with something in it protects itself**: once the last record is
quarantined, the evidence is all that makes it stale. -/
theorem staleOnEvidence_of_content {lease : Lease} {content : Bytes} {legacyQuarantine : Bool}
    (hlease : LeaseOk pid host lease) (hquarantined : lease.Quarantined)
    (hfile : lease.file = some content) (hcontent : content ≠ []) :
    StaleOnEvidence pid host lease content legacyQuarantine := by
  intro reader state _ hstate hstale
  obtain ⟨record, tail, hrecord, rfl⟩ := (hlease.content content hfile).resolve_left hcontent
  obtain ⟨record', hrecord', hquarantine⟩ := hquarantined
  obtain rfl := Option.some.inj (hrecord.symm.trans hrecord')
  obtain ⟨hpid, hhost⟩ := hlease.recorded record hrecord
  have hreapable := reapable_of_stale hstate hstale
  exact ⟨hreapable.host.symm.trans hhost, hpid ▸ hreapable.dead,
    record, hrecord, hreapable.known hquarantine, hreapable.children⟩

/-- An empty file is judged by nothing but the age and the option. -/
theorem cacheFileLeaseState_nil (reader : Reader) :
    cacheFileLeaseState reader [] = .ok
      (if reader.changed then ⟨false, .unverifiable⟩
       else if reader.legacyQuarantine then ⟨false, .unknownChildren⟩
       else if reader.ageMs > reader.staleMs then ⟨true, .legacyStale⟩
       else ⟨false, .legacyBusy⟩) := by
  have hdecode : decodeFatal [] = some [] := rfl
  have howner : cacheOwner reader [] = none := rfl
  have htrim : trim [] = [] := rfl
  unfold cacheFileLeaseState
  cases hchanged : reader.changed with
  | true => rfl
  | false =>
      rw [hdecode]
      dsimp only
      rw [howner]
      dsimp only [legacyState]
      rw [htrim]
      cases reader.legacyQuarantine with
      | true => rfl
      | false => rfl

/-- A reader long after the last write, on a machine where every process runs. -/
def lateReader (host : Text) : Reader where
  hostname := host
  dead _ := false
  validDate _ := true
  ageMs := 1
  staleMs := 0
  legacyQuarantine := false
  changed := false

/-- **Age alone reaps a protected operation exactly when its file is empty.** -/
theorem stale_on_evidence_iff {past : List (World I × Action I)} {w : World I} {content : Bytes}
    (hrun : Run act (start pid host nonce createdAt heartbeatAt) past w)
    (hprotect : w.lease.protectReturned = true) (hfile : w.lease.file = some content)
    (legacyQuarantine : Bool) :
    StaleOnEvidence pid host w.lease content legacyQuarantine
      ↔ content ≠ [] ∨ legacyQuarantine = true := by
  have hinv := inv_run hrun
  constructor
  · intro h
    by_contra hnot
    obtain ⟨rfl, hlegacy⟩ := not_or.mp hnot |>.imp_left not_not.mp
    have hlegacy : false = legacyQuarantine := (Bool.not_eq_true _ |>.mp hlegacy).symm
    have hstate := cacheFileLeaseState_nil (lateReader host)
    have hdead := (h (lateReader host) _ hlegacy hstate rfl).dead
    cases hdead
  · rintro (hcontent | rfl)
    · exact staleOnEvidence_of_content hinv.lease (hinv.quarantined hprotect).2 hfile hcontent
    · intro reader state hlegacy hstate hstale
      by_cases hcontent : content = []
      · subst hcontent
        rw [cacheFileLeaseState_nil, hlegacy, if_pos rfl] at hstate
        rw [← Except.ok.inj hstate] at hstale
        split at hstale <;> cases hstale
      · exact staleOnEvidence_of_content hinv.lease (hinv.quarantined hprotect).2 hfile hcontent
          reader state hlegacy hstate hstale

end Invariant

/-! ## A run in which age is enough -/

def samplePid : Pid := ⟨.ofNat 7, by decide⟩

def sampleNonce : Text := js "3f2a7c10-9b4e-4d61-8a2f-0c5d7e91b6a4"

def sampleDate : Text := js "2026-01-01T00:00:00.000Z"

def sampleStart : World Nat := start samplePid (js "host") sampleNonce sampleDate sampleDate

/-- Acquire the lease and protect it. -/
def protecting : List (Action Nat) :=
  List.replicate 6 (.acquisition .done) ++ [.protect 0 sampleDate]
    ++ List.replicate 5 (.call 0 .done)

/-- Quarantine it once more, and crash after the truncation. -/
def crashing : List (Action Nat) :=
  [.retainQuarantine 1 none none sampleDate] ++ List.replicate 3 (.call 1 .done) ++ [.crash]

/-- A lease that is there and protected. -/
def World.shielded (w : World Nat) : Bool := w.lease.protectReturned && w.lease.file.isSome

/-- A protected lease with an empty file, whose last record knows of no children for sure. -/
def World.emptied (w : World Nat) : Bool :=
  w.lease.protectReturned && w.lease.file = some []
    && w.lease.recorded.any (·.unknownChildren = some true)

/-- The condition of the theorem at a run that has protected the lease. -/
theorem stale_on_evidence_protecting :
    ∃ (past : List (World Nat × Action Nat)) (w : World Nat) (content : Bytes),
      Run act sampleStart past w ∧ w.lease.protectReturned = true ∧ w.lease.file = some content
        ∧ (StaleOnEvidence samplePid (js "host") w.lease content false
          ↔ content ≠ [] ∨ false = true) := by
  have hcheck : (runFrom act ([], sampleStart) protecting).toOption.any
      (fun run => run.2.shielded) = true := by
    decide +kernel
  obtain ⟨past, w, hrun, hw⟩ := Run.exists_of_runFrom hcheck
  obtain ⟨hprotect, hsome⟩ := Bool.and_eq_true_iff.mp hw
  obtain ⟨content, hfile⟩ := Option.isSome_iff_exists.mp hsome
  exact ⟨past, w, content, hrun, hprotect, hfile, stale_on_evidence_iff hrun hprotect hfile false⟩

/-- A reader after the crash: the owner is dead, its child is not. -/
def crashReader : Reader := { lateReader (js "host") with dead := fun pid => pid = samplePid }

/-- **The lease is stale, and there may be a child alive.** -/
theorem stale_with_unknown_children :
    ∃ (past : List (World Nat × Action Nat)) (w : World Nat) (content : Bytes) (state : LeaseState)
      (record : CacheOwner),
      Run act sampleStart past w ∧ w.lease.protectReturned = true ∧ w.lease.file = some content
        ∧ cacheFileLeaseState crashReader content = .ok state ∧ state.stale = true
        ∧ w.lease.recorded = some record ∧ record.unknownChildren = some true
        ∧ ¬ DeathEvidence samplePid (js "host") w.lease crashReader := by
  have hcheck : (runFrom act ([], sampleStart) (protecting ++ crashing)).toOption.any
      (fun run => run.2.emptied) = true := by
    decide +kernel
  obtain ⟨past, w, hrun, hw⟩ := Run.exists_of_runFrom hcheck
  simp only [World.emptied, Bool.and_eq_true, decide_eq_true_eq] at hw
  obtain ⟨⟨hprotect, hfile⟩, hrecorded⟩ := hw
  obtain ⟨record, hrecord, hunknown⟩ := (Option.any_eq_true _ _).mp hrecorded
  have hunknown : record.unknownChildren = some true := of_decide_eq_true hunknown
  refine ⟨past, w, [], _, record, hrun, hprotect, hfile, cacheFileLeaseState_nil crashReader, rfl,
    hrecord, hunknown, fun hevidence => ?_⟩
  obtain ⟨record', hrecord', hknown, -⟩ := hevidence.recorded
  obtain rfl := Option.some.inj (hrecord.symm.trans hrecord')
  rw [hunknown] at hknown
  cases hknown

end Leases

end SingularityFlow
