/-
# The contention for a file lease

A lease is a file at one pathname.  A contender has the lease from when it has
created the file there until it removes it.  A file whose owner is gone is moved
away by `reclaimRegistryFileLease`: since a rename moves whatever is at the
pathname, the renames of one observed file are numbered by claims, of which only
the creator may rename; an abandoned claim is fenced before the next one is made,
and no claim is ever removed.

There are two kinds of lease.  `withRegistryFileLease` observes the file by an
`lstat` and a read of the pathname, and keeps its time of modification fresh;
`acquireFileLease` reads the file it has opened, and may rewrite it while it has
the lease.  Each call of the file system is a step, of any number of contenders,
and any of them may crash between any two steps.

A file is named by its inode and its time of birth.  What is still at the
pathname or in a claim keeps its inode; that of a removed file may come back.
The name of a claim is a digest of what it was made for, and digests of
different observations are taken to differ.
-/
import SingularityFlow.Lib.Run
import Mathlib.Logic.Function.Basic

namespace SingularityFlow

open Ecma

namespace Contention

/-! ## Files and claims -/

/-- Which of the two functions a pathname is used by. -/
inductive Kind where
  | registry | cache
deriving DecidableEq

structure FileId where
  inode : Nat
  birth : Nat
deriving DecidableEq

/-- What is in a lease file: nothing yet, or a record of its owner. -/
inductive Content (C : Type) where
  | empty
  | record (owner : C) (revision : Nat)
deriving DecidableEq

structure File (C : Type) where
  creator : C
  content : Content C
  mtime : Nat
deriving DecidableEq

/-- What `lstat` tells. -/
structure Info where
  id : FileId
  mtime : Nat
deriving DecidableEq

/-- What `registryLeaseReclaimIdentity` digests. -/
structure Identity (C : Type) where
  info : Info
  content : Content C
deriving DecidableEq

/-- `retired.lock` in a claim. -/
inductive Destination where
  | missing
  | retired (id : FileId)
  | fenced
deriving DecidableEq

/-- The directory of a claim; its creator is the one that `claim.json` names. -/
structure Claim (C : Type) where
  creator : C
  destination : Destination

/-! ## Where a contender stands -/

/-- A call of `reclaimRegistryFileLease`, at the claim of the generation. -/
structure Reclaim (C : Type) where
  identity : Identity C
  generation : Nat
deriving DecidableEq

/-- The file that a contender has created, and the revision of the record that
it has written and flushed. -/
structure Own where
  id : FileId
  revision : Option Nat

/-- What an observation is made for. -/
inductive Task (C : Type) where
  | existing
  | current (r : Reclaim C)
  | release (own : Own)

/-- Where an observation stands. -/
inductive Look (C : Type) where
  | lstat
  | readFile (info : Info)
  | openFile (before : Info)
  | fstat (before : Info) (opened : FileId)
  | read (opened : Info)
  | after (opened : Info) (content : Content C)
  | judge (info : Info) (content : Content C)

inductive Phase (C : Type) where
  | opening
  | look (task : Task C) (look : Look C)
  | claim (r : Reclaim C)
  | claimInfo (r : Reclaim C)
  | claimDestination (r : Reclaim C)
  | claimOwner (r : Reclaim C)
  | fence (r : Reclaim C)
  | fenceInfo (r : Reclaim C)
  | fenceFile (r : Reclaim C)
  | claimFile (r : Reclaim C)
  | rename (r : Reclaim C)
  | waiting
  | stat (id : FileId)
  | write (id : FileId)
  | sync (id : FileId)
  | held (own : Own)
  | candidate (id : FileId)
  | remove (id : FileId)
  | finished
  | crashed

/-- The file of a contender that has the lease, or is on the way to have it. -/
def Phase.own? {C : Type} : Phase C → Option FileId
  | .stat id | .write id | .sync id | .candidate id | .remove id => some id
  | .held own | .look (.release own) _ => some own.id
  | _ => none

structure World (C : Type) where
  /-- The file at the pathname. -/
  path : Option FileId
  files : FileId → Option (File C)
  claims : Reclaim C → Option (Claim C)
  /-- The files that were moved into claims. -/
  retained : List FileId
  phases : C → Phase C

/-- Nobody has tried yet. -/
def start (C : Type) : World C where
  path := none
  files := fun _ => none
  claims := fun _ => none
  retained := []
  phases := fun _ => .opening

/-- What the surroundings decide in a call. -/
structure Surroundings where
  /-- The call of the file system succeeds, or fails in a way that is foreseen. -/
  done : Bool
  /-- What is observed is judged stale. -/
  stale : Bool
  /-- There is time for another try; the caller lets the lease be removed. -/
  goesOn : Bool
  /-- The name of a file that is created. -/
  id : FileId
  /-- The time of a file that is written. -/
  mtime : Nat

inductive Action (C : Type) where
  | act (c : C) (e : Surroundings)
  /-- The heartbeat of a registry lease. -/
  | beat (c : C) (mtime : Nat)
  /-- The truncation and the write of `retainQuarantine`. -/
  | truncate (c : C) (mtime : Nat)
  | rewrite (c : C) (mtime : Nat)
  | crash (c : C)

section Step

variable {C : Type} [DecidableEq C]

def World.goto (w : World C) (c : C) (p : Phase C) : World C :=
  { w with phases := Function.update w.phases c p }

def World.setFile (w : World C) (id : FileId) (f : File C) : World C :=
  { w with files := Function.update w.files id (some f) }

/-- `open(file, 'wx')`, where there is no file. -/
def World.create (w : World C) (id : FileId) (f : File C) : World C :=
  { w with path := some id }.setFile id f

def World.setClaim (w : World C) (r : Reclaim C) (v : Claim C) : World C :=
  { w with claims := Function.update w.claims r (some v) }

/-- `rename(lock, destination)`, of the file at the pathname. -/
def World.retire (w : World C) (r : Reclaim C) (creator : C) (id : FileId) : World C :=
  { w with path := none, retained := id :: w.retained }.setClaim r ⟨creator, .retired id⟩

@[simp] theorem goto_self (w : World C) (c : C) (p : Phase C) : (w.goto c p).phases c = p := by
  simp [World.goto]

theorem goto_of_ne (w : World C) {c d : C} (p : Phase C) (h : d ≠ c) :
    (w.goto c p).phases d = w.phases d := by simp [World.goto, h]

omit [DecidableEq C] in
@[simp] theorem setFile_self (w : World C) (id : FileId) (f : File C) :
    (w.setFile id f).files id = some f := by simp [World.setFile]

omit [DecidableEq C] in
theorem setFile_of_ne (w : World C) {id id' : FileId} (f : File C) (h : id' ≠ id) :
    (w.setFile id f).files id' = w.files id' := by simp [World.setFile, h]

@[simp] theorem setClaim_self (w : World C) (r : Reclaim C) (v : Claim C) :
    (w.setClaim r v).claims r = some v := by simp [World.setClaim]

theorem setClaim_of_ne (w : World C) {r r' : Reclaim C} (v : Claim C) (h : r' ≠ r) :
    (w.setClaim r v).claims r' = w.claims r' := by simp [World.setClaim, h]

/-! ## The calls -/

/-- `REGISTRY_RECLAIM_GENERATIONS`. -/
def reclaimGenerations : Nat := 32

/-- The next claim. -/
def Reclaim.next (r : Reclaim C) : Phase C :=
  if r.generation + 1 < reclaimGenerations then .claim { r with generation := r.generation + 1 }
  else .finished

/-- What is at the pathname. -/
def World.observed (w : World C) : Option (Info × File C) :=
  w.path.bind fun id => (w.files id).map fun f => (⟨id, f.mtime⟩, f)

/-- After an observation of no file. -/
def absent (kind : Kind) : Task C → Phase C
  | .existing =>
      match kind with
      | .registry => .waiting
      | .cache => .opening
  | .current _ => .waiting
  | .release _ => .finished

/-- After an observation that is not safe. -/
def refused : Task C → Phase C
  | .existing | .current _ => .waiting
  | .release _ => .finished

/-- The content is the record of the contender: by its token, or all of it. -/
def ownRecord (kind : Kind) (c : C) (own : Own) (content : Content C) : Bool :=
  match kind, content with
  | _, .empty => false
  | .registry, .record owner _ => owner = c
  | .cache, .record owner revision => owner = c && own.revision = some revision

/-- The same file: by device and inode, or by the time of birth too. -/
def sameFile (kind : Kind) (left right : FileId) : Bool :=
  match kind with
  | .registry => left.inode = right.inode
  | .cache => left = right

/-- What is done with an observation. -/
def resume (kind : Kind) (c : C) (stale : Bool) (info : Info) (content : Content C) :
    Task C → Phase C
  | .existing => if stale then .claim ⟨⟨info, content⟩, 0⟩ else .waiting
  | .current r => if stale && (⟨info, content⟩ : Identity C) = r.identity then .rename r else .waiting
  | .release own =>
      if sameFile kind info.id own.id && ownRecord kind c own content then .remove own.id else .finished

/-- One call of an observation: `registryLeaseState` or `readCacheLease`. -/
def observe (kind : Kind) (w : World C) (c : C) (e : Surroundings) (task : Task C) :
    Look C → Phase C
  | .lstat =>
      match w.observed, kind with
      | none, _ => absent kind task
      | some (info, _), .registry => .look task (.readFile info)
      | some (info, _), .cache => .look task (.openFile info)
  | .readFile info =>
      match w.observed with
      | none => absent kind task
      | some (_, f) => .look task (.judge info f.content)
  | .openFile before =>
      match w.path with
      | none => absent kind task
      | some id => .look task (.fstat before id)
  | .fstat before opened =>
      match w.files opened with
      | none => absent kind task
      | some f => if before.id = opened then .look task (.read ⟨opened, f.mtime⟩) else refused task
  | .read opened =>
      match w.files opened.id with
      | none => absent kind task
      | some f => .look task (.after opened f.content)
  | .after opened content =>
      match w.observed with
      | none => absent kind task
      | some (info, _) => if info = opened then .look task (.judge info content) else refused task
  | .judge info content => resume kind c e.stale info content task

/-- The file that a rename into the claim moves; a directory there is not replaced. -/
def World.moves (w : World C) (r : Reclaim C) : Option FileId :=
  match w.claims r with
  | none | some ⟨_, .fenced⟩ => none
  | some ⟨_, .missing⟩ | some ⟨_, .retired _⟩ => w.path

/-- A call of a contender that succeeds, or fails in a way that is foreseen. -/
def call (kind : Kind) (w : World C) (c : C) (e : Surroundings) : Except Unit (World C) :=
  match w.phases c with
  | .opening =>
      match w.path with
      | none =>
          -- the inode of a file that is still there is not used again
          if w.retained.any fun id => id.inode = e.id.inode then .error ()
          else .ok ((w.create e.id ⟨c, .empty, e.mtime⟩).goto c (.stat e.id))
      | some _ => .ok (w.goto c (.look .existing .lstat))
  | .look task look => .ok (w.goto c (observe kind w c e task look))
  | .claim r =>
      match w.claims r with
      | none => .ok ((w.setClaim r ⟨c, .missing⟩).goto c (.claimFile r))
      | some _ => .ok (w.goto c (.claimInfo r))
  | .claimInfo r =>
      match w.claims r with
      | none => .ok (w.goto c r.next)
      | some _ => .ok (w.goto c (.claimDestination r))
  | .claimDestination r =>
      match w.claims r with
      | some ⟨_, .retired _⟩ => .ok (w.goto c .waiting)
      | some ⟨_, .fenced⟩ => .ok (w.goto c r.next)
      | some ⟨_, .missing⟩ | none => .ok (w.goto c (.claimOwner r))
  | .claimOwner r => .ok (w.goto c (if e.stale then .fence r else .waiting))
  | .fence r =>
      match w.claims r with
      | none => .ok (w.goto c .finished)
      | some ⟨creator, .missing⟩ => .ok ((w.setClaim r ⟨creator, .fenced⟩).goto c (.fenceFile r))
      | some _ => .ok (w.goto c (.fenceInfo r))
  | .fenceInfo r =>
      match w.claims r with
      | some ⟨_, .fenced⟩ => .ok (w.goto c r.next)
      | _ => .ok (w.goto c .waiting)
  | .fenceFile r => .ok (w.goto c r.next)
  | .claimFile r => .ok (w.goto c (.look (.current r) .lstat))
  | .rename r =>
      match w.claims r, w.moves r with
      | some claim, some id =>
          .ok ((w.retire r claim.creator id).goto c .opening)
      | _, _ => .ok (w.goto c .waiting)
  | .waiting => .ok (w.goto c (if e.goesOn then .opening else .finished))
  | .stat id => .ok (w.goto c (.write id))
  | .write id =>
      match w.files id with
      | none => .error ()
      | some f =>
          .ok ((w.setFile id { f with content := .record c 0, mtime := e.mtime }).goto c (.sync id))
  | .sync id => .ok (w.goto c (.held ⟨id, some 0⟩))
  | .held own =>
      -- a protected lease stays where it is
      if kind = .cache ∧ !e.goesOn then .ok (w.goto c .finished)
      else .ok (w.goto c (.look (.release own) .lstat))
  | .candidate id =>
      match w.path with
      | none => .ok (w.goto c .finished)
      | some current =>
          if current.inode = id.inode then .ok (w.goto c (.remove id)) else .ok (w.goto c .finished)
  | .remove _ => .ok ({ w with path := none }.goto c .finished)
  | .finished | .crashed => .error ()

/-- Where a call that fails leads: to the end, and from a candidate to its removal. -/
def failed (kind : Kind) : Phase C → Phase C
  | .write id | .sync id =>
      match kind with
      | .registry => .candidate id
      | .cache => .look (.release ⟨id, none⟩) .lstat
  | _ => .finished

/-- A change of its file by the contender that has the lease. -/
def World.touch (w : World C) (id : FileId) (change : File C → File C) : Except Unit (World C) :=
  match w.files id with
  | none => .error ()
  | some f => .ok (w.setFile id (change f))

/-- One step of the whole. -/
def step (kind : Kind) (w : World C) : Action C → Except Unit (World C)
  | .act c e =>
      match w.phases c with
      | .finished | .crashed => .error ()
      | p => if e.done then call kind w c e else .ok (w.goto c (failed kind p))
  | .beat c mtime =>
      match kind, (w.phases c).own? with
      | .registry, some id => w.touch id fun f => { f with mtime }
      | _, _ => .error ()
  | .truncate c mtime =>
      match kind, w.phases c with
      | .cache, .held own => w.touch own.id fun f => { f with content := .empty, mtime }
      | _, _ => .error ()
  | .rewrite c mtime =>
      match kind, w.phases c with
      | .cache, .held own =>
          let revision := own.revision.elim 0 (· + 1)
          match w.touch own.id fun f => { f with content := .record c revision, mtime } with
          | .ok w => .ok (w.goto c (.held { own with revision := some revision }))
          | .error e => .error e
      | _, _ => .error ()
  | .crash c => .ok (w.goto c .crashed)

end Step

end Contention

end SingularityFlow
