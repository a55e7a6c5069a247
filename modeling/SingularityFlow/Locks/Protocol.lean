/-
# The mutation lock of one subject

The lock is a directory at one pathname.  A contender makes the directory, and
publishes its owner record inside without replacing one; it has the lock when it
has seen its own record in the directory it made out as its own.  A directory
that is judged stale, and a directory that is released, is moved out of the way
by `retireObservedDirectory`.  Since a rename moves whatever is at the pathname,
the renames of one observed directory are numbered by claims, of which only the
creator may rename; an abandoned claim is fenced before the next one is made.

Each call of the file system is a step, of any number of contenders, and any of
them may crash between any two steps.  A directory is named by a number that is
never used again (its device, inode and time of birth), and a claim by what it
was made for.  Whether a directory is judged stale is up to the surroundings,
but for one thing: not while its owner record names a contender that is alive.
-/
import SingularityFlow.Lib.Run
import Mathlib.Data.Finset.Erase
import Mathlib.Data.Finset.Insert
import Mathlib.Logic.Function.Basic

namespace SingularityFlow

open Ecma

namespace Locks

/-! ## What a contender remembers -/

/-- What `activeDirectoryOwner` returns: the directory, the contender that its
owner record names, and whether it counts as held. -/
structure Observed (C : Type) where
  info : Option Nat
  owner : Option C
  active : Bool

/-- Where a retirement returns to. -/
inductive Back where
  /-- To `acquireLockDirectory`, which tries once more. -/
  | reclaimed (attempt : Nat)
  /-- To the clean-up of a failed attempt, after which there may be another. -/
  | cleaned (attempt : Nat) (again : Bool)
  /-- To `releaseOwnedDirectory`. -/
  | released
deriving DecidableEq

/-- A call of `retireObservedDirectory`, at the claim with the number. -/
structure Retire (C : Type) where
  observed : Nat
  owner : Option C
  requireStale : Bool
  expectedOwner : Option C
  number : Nat
  back : Back

/-- What an observation is made for. -/
inductive Task (C : Type) where
  | existing (attempt : Nat)
  | published (attempt acquired : Nat)
  | cleanup (attempt acquired : Nat) (again : Bool)
  | release
  | current (r : Retire C)
  | final (r : Retire C)
  | moved (r : Retire C)
  | restoreBusy (r : Retire C) (moved : Option C)
  | restored (r : Retire C) (moved : Option C)

/-- Where `activeDirectoryOwner` stands. -/
inductive Look (C : Type) where
  | before
  | owner (before : Nat)
  | after (before : Nat) (owner : Option C)

/-- The files of a lock directory. -/
inductive Entry (C : Type) where
  /-- `owner.json`. -/
  | owner
  /-- `owner.json.<token>`, before it is published. -/
  | pending (c : C)
  | heartbeat (c : C)
deriving DecidableEq

instance instLawfulBEqEntry {C : Type} [DecidableEq C] : LawfulBEq (Entry C) := inferInstance

/-- Where a contender stands. -/
inductive Phase (C : Type) where
  | create (attempt : Nat)
  | inspect (attempt : Nat)
  | writePending (attempt acquired : Nat)
  | writeHeartbeat (attempt acquired : Nat)
  | beforePublish (attempt acquired : Nat)
  | link (attempt acquired : Nat)
  | exclusiveWrite (attempt acquired : Nat)
  | removePending (attempt acquired : Nat)
  | afterAcquire (attempt acquired : Nat)
  | held
  | look (task : Task C) (tries : Nat) (look : Look C)
  | claim (r : Retire C)
  | claimInfo (r : Retire C)
  | claimDestination (r : Retire C)
  | fence (r : Retire C)
  | fenceInfo (r : Retire C)
  | claimFile (r : Retire C)
  | rename (r : Retire C)
  | restoreCreate (r : Retire C) (moved : Option C)
  | restoreList (r : Retire C) (moved : Option C)
  | restoreEntry (r : Retire C) (moved : Option C) (entries : List (Entry C))
  | destinationInfo (r : Retire C) (thrown : Bool)
  | removeClaim (r : Retire C) (result thrown : Bool)
  | failed
  | released (result : Bool)
  | crashed

def Phase.isCrashed {C : Type} : Phase C → Bool
  | .crashed => true
  | _ => false

/-! ## The file system -/

/-- The directory of a lock: the contender that its owner record names, and
the contenders of its other files. -/
structure Directory (C : Type) where
  owner : Option C
  pending : Finset C
  heartbeats : Finset C

def Directory.empty {C : Type} : Directory C := ⟨none, ∅, ∅⟩

/-- `retired.lock` in a claim. -/
inductive Destination where
  | missing
  | retired (directory : Nat)
  | fenced

/-- What a claim is named by. -/
structure Claim (C : Type) where
  observed : Nat
  owner : Option C
  number : Nat
deriving DecidableEq

def Retire.claim {C : Type} (r : Retire C) : Claim C := ⟨r.observed, r.owner, r.number⟩

structure World (C : Type) where
  /-- The number of the next directory. -/
  next : Nat
  /-- The directory at the lock's pathname. -/
  path : Option Nat
  directories : Nat → Directory C
  claims : Claim C → Option Destination
  phases : C → Phase C

/-- Nobody has tried yet. -/
def start (C : Type) : World C where
  next := 0
  path := none
  directories := fun _ => .empty
  claims := fun _ => none
  phases := fun _ => .create 0

/-- What the surroundings decide in a step. -/
structure Surroundings (C : Type) where
  /-- A directory without a live owner is judged stale, or a claim abandoned. -/
  old : Bool
  /-- The file system has hard links. -/
  linked : Bool
  /-- What is to be done on acquisition succeeds. -/
  passes : Bool
  /-- The files of a directory, in the order in which they are listed. -/
  listed : List (Entry C)

inductive Action (C : Type) where
  | act (c : C) (e : Surroundings C)
  | crash (c : C)

section Step

variable {C : Type} [DecidableEq C]

def World.goto (w : World C) (c : C) (p : Phase C) : World C :=
  { w with phases := Function.update w.phases c p }

/-- `mkdir(directory)`, where there is none. -/
def World.makeDirectory (w : World C) : World C :=
  { w with
    next := w.next + 1
    path := some w.next
    directories := Function.update w.directories w.next .empty }

def World.setDirectory (w : World C) (g : Nat) (d : Directory C) : World C :=
  { w with directories := Function.update w.directories g d }

def World.setClaim (w : World C) (claim : Claim C) (v : Option Destination) : World C :=
  { w with claims := Function.update w.claims claim v }

@[simp] theorem goto_phases_self (w : World C) (c : C) (p : Phase C) :
    (w.goto c p).phases c = p := by simp [World.goto]

theorem goto_phases_of_ne (w : World C) {c d : C} (p : Phase C) (h : d ≠ c) :
    (w.goto c p).phases d = w.phases d := by simp [World.goto, h]

omit [DecidableEq C] in
@[simp] theorem makeDirectory_directories_self (w : World C) :
    w.makeDirectory.directories w.next = .empty := by simp [World.makeDirectory]

omit [DecidableEq C] in
theorem makeDirectory_directories_of_ne (w : World C) {g : Nat} (h : g ≠ w.next) :
    w.makeDirectory.directories g = w.directories g := by simp [World.makeDirectory, h]

omit [DecidableEq C] in
@[simp] theorem setDirectory_directories_self (w : World C) (g : Nat) (d : Directory C) :
    (w.setDirectory g d).directories g = d := by simp [World.setDirectory]

omit [DecidableEq C] in
theorem setDirectory_directories_of_ne (w : World C) {g g' : Nat} (d : Directory C) (h : g' ≠ g) :
    (w.setDirectory g d).directories g' = w.directories g' := by simp [World.setDirectory, h]

/-- The directory that a task looks at. -/
def World.lookup (w : World C) : Task C → Option Nat
  | .moved r =>
      match w.claims r.claim with
      | some (.retired g) => some g
      | _ => none
  | _ => w.path

/-- `stale`: never while the owner is alive. -/
def World.stale (w : World C) (e : Surroundings C) (owner : Option C) : Bool :=
  e.old && owner.all fun d => (w.phases d).isCrashed

/-! ## The calls -/

def attempts : Nat := 8

def reclaimGenerations : Nat := 16

/-- The next round of `acquireLockDirectory`. -/
def nextAttempt (attempt : Nat) : Phase C :=
  if attempt + 1 < attempts then .create (attempt + 1) else .failed

/-- After `cleanupFailedAcquisition`. -/
def cleaned (attempt : Nat) (again : Bool) : Phase C := if again then nextAttempt attempt else .failed

/-- `activeDirectoryOwner`. -/
def observe (task : Task C) : Phase C := .look task 0 .before

/-- An attempt that failed where another may follow. -/
def failAttempt (attempt acquired : Nat) : Phase C := observe (.cleanup attempt acquired true)

/-- The end of `retireObservedDirectory`. -/
def Retire.return (r : Retire C) (result thrown : Bool) : Phase C :=
  match r.back with
  | .reclaimed attempt => if thrown then .failed else nextAttempt attempt
  | .cleaned attempt again => cleaned attempt again
  | .released => .released (result && !thrown)

/-- The next claim. -/
def Retire.advance (r : Retire C) : Phase C :=
  if r.number + 1 < reclaimGenerations then .claim { r with number := r.number + 1 }
  else r.return false true

/-- `sameObservedDirectory`, and what is asked besides before the rename. -/
def Retire.valid (r : Retire C) (o : Observed C) : Bool :=
  o.info = some r.observed && o.owner = r.owner && !(r.requireStale && o.active)
    && (r.expectedOwner.isNone || o.owner = r.expectedOwner)

/-- What is done with an observation. -/
def resume (c : C) : Task C → Observed C → Phase C
  | .existing attempt, o =>
      match o.info with
      | none => nextAttempt attempt
      | some g =>
          if o.active then .failed
          else .claim ⟨g, o.owner, true, none, 0, .reclaimed attempt⟩
  | .published attempt acquired, o =>
      if o.info = some acquired ∧ o.owner = some c then .afterAcquire attempt acquired
      else failAttempt attempt acquired
  | .cleanup attempt acquired again, o =>
      match o.info with
      | none => cleaned attempt again
      | some g =>
          if o.owner = some c then .claim ⟨g, o.owner, false, some c, 0, .cleaned attempt again⟩
          else if g ≠ acquired ∨ o.owner.isSome then cleaned attempt again
          else .claim ⟨g, o.owner, false, none, 0, .cleaned attempt again⟩
  | .release, o =>
      match o.info with
      | none => .released false
      | some g =>
          if o.owner = some c then .claim ⟨g, o.owner, false, some c, 0, .released⟩
          else .released false
  | .current r, o => if r.valid o then observe (.final r) else .destinationInfo r false
  | .final r, o => if r.valid o then .rename r else .destinationInfo r false
  | .moved r, o =>
      if o.info = some r.observed ∧ o.owner = r.owner then .removeClaim r true false
      else .restoreCreate r o.owner
  | .restoreBusy r moved, o => .destinationInfo r (o.owner ≠ moved)
  | .restored r moved, o => .destinationInfo r (o.owner ≠ moved)

def Directory.has (d : Directory C) : Entry C → Bool
  | .owner => d.owner.isSome
  | .pending c => c ∈ d.pending
  | .heartbeat c => c ∈ d.heartbeats

/-- `readdir`, in some order. -/
def Directory.Lists (d : Directory C) (listed : List (Entry C)) : Prop :=
  listed.Nodup ∧ (∀ entry ∈ listed, d.has entry) ∧ (d.owner.isSome → .owner ∈ listed)
    ∧ (∀ c ∈ d.pending, .pending c ∈ listed) ∧ ∀ c ∈ d.heartbeats, .heartbeat c ∈ listed

instance (d : Directory C) (listed : List (Entry C)) : Decidable (d.Lists listed) := by
  unfold Directory.Lists
  infer_instance

/-- A file of one directory is published in another. -/
def Directory.add (target source : Directory C) : Entry C → Directory C
  | .owner => { target with owner := source.owner }
  | .pending c => { target with pending := insert c target.pending }
  | .heartbeat c => { target with heartbeats := insert c target.heartbeats }

/-- `publishOwnerNoReplace`. -/
def Directory.publish (target source : Directory C) (entry : Entry C) : Option (Directory C) :=
  if target.has entry then none else some (target.add source entry)

/-- One call of a contender. -/
def act (w : World C) (c : C) (e : Surroundings C) : Except Unit (World C) :=
  match w.phases c with
  | .create attempt =>
      match w.path with
      | none => .ok (w.makeDirectory.goto c (.inspect attempt))
      | some _ => .ok (w.goto c (observe (.existing attempt)))
  | .inspect attempt =>
      match w.path with
      | none => .ok (w.goto c (nextAttempt attempt))
      | some g => .ok (w.goto c (.writePending attempt g))
  | .writePending attempt acquired =>
      match w.path with
      | none => .ok (w.goto c (failAttempt attempt acquired))
      | some g =>
          let d := w.directories g
          if c ∈ d.pending then .ok (w.goto c (failAttempt attempt acquired))
          else .ok ((w.setDirectory g { d with pending := insert c d.pending }).goto c
            (.writeHeartbeat attempt acquired))
  | .writeHeartbeat attempt acquired =>
      match w.path with
      | none => .ok (w.goto c (failAttempt attempt acquired))
      | some g =>
          let d := w.directories g
          if c ∈ d.heartbeats then .ok (w.goto c (failAttempt attempt acquired))
          else .ok ((w.setDirectory g { d with heartbeats := insert c d.heartbeats }).goto c
            (.beforePublish attempt acquired))
  | .beforePublish attempt acquired =>
      if w.path = some acquired then .ok (w.goto c (.link attempt acquired))
      else .ok (w.goto c (failAttempt attempt acquired))
  | .link attempt acquired =>
      if !e.linked then .ok (w.goto c (.exclusiveWrite attempt acquired))
      else
        match w.path with
        | none => .ok (w.goto c (failAttempt attempt acquired))
        | some g =>
            let d := w.directories g
            if c ∉ d.pending ∨ d.owner.isSome then
              .ok (w.goto c (failAttempt attempt acquired))
            else .ok ((w.setDirectory g { d with owner := some c }).goto c
              (.removePending attempt acquired))
  | .exclusiveWrite attempt acquired =>
      match w.path with
      | none => .ok (w.goto c (failAttempt attempt acquired))
      | some g =>
          let d := w.directories g
          if d.owner.isSome then .ok (w.goto c (failAttempt attempt acquired))
          else .ok ((w.setDirectory g { d with owner := some c }).goto c
            (.removePending attempt acquired))
  | .removePending attempt acquired =>
      match w.path with
      | none => .ok (w.goto c (observe (.published attempt acquired)))
      | some g =>
          let d := w.directories g
          .ok ((w.setDirectory g { d with pending := d.pending.erase c }).goto c
            (observe (.published attempt acquired)))
  | .afterAcquire attempt acquired =>
      if e.passes then .ok (w.goto c .held)
      else .ok (w.goto c (observe (.cleanup attempt acquired false)))
  | .held => .ok (w.goto c (observe .release))
  | .look task tries .before =>
      match w.lookup task with
      | none => .ok (w.goto c (resume c task ⟨none, none, false⟩))
      | some g => .ok (w.goto c (.look task tries (.owner g)))
  | .look task tries (.owner g) =>
      let owner := (w.lookup task).bind fun g => (w.directories g).owner
      .ok (w.goto c (.look task tries (.after g owner)))
  | .look task tries (.after g owner) =>
      if w.lookup task = some g then
        .ok (w.goto c (resume c task ⟨some g, owner, !w.stale e owner⟩))
      else if tries + 1 < 3 then .ok (w.goto c (.look task (tries + 1) .before))
      -- an unstable path is held, never absent
      else .ok (w.goto c (resume c task ⟨none, none, true⟩))
  | .claim r =>
      match w.claims r.claim with
      | none => .ok ((w.setClaim r.claim (some .missing)).goto c (.claimFile r))
      | some _ => .ok (w.goto c (.claimInfo r))
  | .claimInfo r =>
      match w.claims r.claim with
      | none => .ok (w.goto c r.advance)
      | some _ => .ok (w.goto c (.claimDestination r))
  | .claimDestination r =>
      match w.claims r.claim with
      | some (.retired _) => .ok (w.goto c (r.return false false))
      | some .fenced => .ok (w.goto c r.advance)
      | some .missing | none =>
          if e.old then .ok (w.goto c (.fence r)) else .ok (w.goto c (r.return false false))
  | .fence r =>
      match w.claims r.claim with
      | none => .ok (w.goto c (r.return false true))
      | some .missing => .ok ((w.setClaim r.claim (some .fenced)).goto c r.advance)
      | some _ => .ok (w.goto c (.fenceInfo r))
  | .fenceInfo r =>
      match w.claims r.claim with
      | some .fenced => .ok (w.goto c r.advance)
      | _ => .ok (w.goto c (r.return false false))
  | .claimFile r => .ok (w.goto c (observe (.current r)))
  | .rename r =>
      match w.path, w.claims r.claim with
      | some g, some .missing =>
          .ok (({ w with path := none }.setClaim r.claim (some (.retired g))).goto c
            (observe (.moved r)))
      | _, _ => .ok (w.goto c (.destinationInfo r false))
  | .restoreCreate r moved =>
      match w.path with
      | none => .ok (w.makeDirectory.goto c (.restoreList r moved))
      | some _ => .ok (w.goto c (observe (.restoreBusy r moved)))
  | .restoreList r moved =>
      match w.claims r.claim with
      | some (.retired g) =>
          if (w.directories g).Lists e.listed then .ok (w.goto c (.restoreEntry r moved e.listed))
          else .error ()
      | _ => .ok (w.goto c (.destinationInfo r true))
  | .restoreEntry r moved [] => .ok (w.goto c (observe (.restored r moved)))
  | .restoreEntry r moved (entry :: rest) =>
      match w.path, w.claims r.claim with
      | some g, some (.retired source) =>
          match (w.directories g).publish (w.directories source) entry with
          | some d => .ok ((w.setDirectory g d).goto c (.restoreEntry r moved rest))
          | none => .ok (w.goto c (.destinationInfo r true))
      | _, _ => .ok (w.goto c (.destinationInfo r true))
  | .destinationInfo r thrown =>
      match w.claims r.claim with
      | some .missing | none => .ok (w.goto c (.removeClaim r false thrown))
      | _ => .ok (w.goto c (r.return false thrown))
  | .removeClaim r result thrown => .ok ((w.setClaim r.claim none).goto c (r.return result thrown))
  | .failed | .released _ | .crashed => .error ()

/-- One step of the whole. -/
def step (w : World C) : Action C → Except Unit (World C)
  | .act c e => act w c e
  | .crash c => .ok (w.goto c .crashed)

end Step

end Locks

end SingularityFlow
