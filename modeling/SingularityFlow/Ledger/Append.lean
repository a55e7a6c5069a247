/-
# Appending to the ledger from many processes

The state branch lives at a remote, or, without one, is the local branch of
the only repository.  Any number of processes append to it; each runs
`appendLedgerIntent`: one atomic attempt, then `appendOnce` with retries.  A
step of a process is one of its commands (read a ref, ask the remote, build a
commit, push, `update-ref`), and the surroundings decide whether a command
takes effect and whether its answer arrives.  A process that crashed takes no
further step.

A commit is the commit it was built on and the records it holds, and Git names
commits by their content; a push lease and an old value of `update-ref` are
compared with the ref in the step that moves it.  Records are held as
`readRecord` reads them back.  Pins are left to the surroundings: an entry that
could not be pinned is a command that failed.
-/
import SingularityFlow.Ledger.Records
import SingularityFlow.Lib.Collections
import SingularityFlow.Lib.Run
import Mathlib.Logic.Function.Basic

namespace SingularityFlow

open Ecma Ecma.Value

namespace Ledger

/-! ## The records of a commit -/

/-- `ledger/head.json`. -/
structure Head where
  sequence : Nat
  entryHash : Option Text
  previousHeadHash : Option Text
  updatedAt : Text
deriving DecidableEq

/-- A file under `ledger/idempotency`. -/
structure IndexRecord where
  eventId : Option Value
  idempotencyKey : Text
  idempotencyHash : Text
  entryHash : Text
  sequence : Nat
deriving DecidableEq

/-- The ledger files of a commit: entries by their hash, indexes by the hash of
the key.  The other files of the branch, the copies under `ledger/events`
included, are not read by an append. -/
structure Tree where
  head : Head
  entries : List (Text × Value)
  idempotency : List (Text × IndexRecord)
deriving DecidableEq

/-- A commit of the state branch. -/
inductive Commit
  | root (tree : Tree)
  | child (base : Commit) (tree : Tree)
deriving DecidableEq

namespace Commit

def tree : Commit → Tree
  | root t => t
  | child _ t => t

def base? : Commit → Option Commit
  | root _ => none
  | child base _ => some base

/-- `git merge-base --is-ancestor a c`. -/
def isAncestor (a : Commit) : Commit → Bool
  | root t => a = root t
  | child base t => a = child base t || isAncestor a base

/-- The entries at the heads of a commit and of all it was built on, the last first. -/
def log : Commit → List Value
  | root _ => []
  | child base t => (t.head.entryHash.bind (mapGet t.entries)).toList ++ base.log

end Commit

/-- The configuration that an append reads. -/
structure Config where
  maxRetries : Nat
  pinTransport : Text
  retentionDays : Nat

/-- The arguments of `appendLedgerIntent`, with the pin ref that they have. -/
structure Request where
  intent : Value
  publishedCommit : Text
  pin : Option Text

/-- The key of a request. -/
def Request.key (r : Request) : Except Failure IdempotencyKey :=
  ledgerIdempotencyKey r.intent (some (.str r.publishedCommit))

/-- The own members of `{ ...value }`. -/
def spread : Value → List (Text × Value)
  | .obj members => propertyOrder members
  | _ => []

def orNull (t : Option Text) : Value := (t.map Value.str).getD .null

/-- The entry of a request behind a head: `entryFromIntent`, and what
`ledgerEntryFiles` adds to it. -/
def ledgerEntry (config : Config) (r : Request) (key : IdempotencyKey) (head : Head) (now : Text) :
    Value :=
  let members := define (spread r.intent) (js "idempotencyKey") (.str key.value)
  let members := define members (js "transport") (.obj
    [(js "publishedCommit", .str r.publishedCommit), (js "recordedAt", .str now),
      (js "pinRef", orNull r.pin), (js "pinTransport", .str config.pinTransport),
      (js "retentionDays", .num (.ofNat config.retentionDays))])
  .obj (define members (js "parentEntryHash") (orNull head.entryHash))

/-- `sha256(canonicalJson(head))`. -/
def headHash (head : Head) : Text :=
  sha256 (canonicalJson (.obj
    [(js "schemaVersion", .num (.ofNat currentSchemaVersion)),
      (js "sequence", .num (.ofNat head.sequence)), (js "entryHash", orNull head.entryHash),
      (js "previousHeadHash", orNull head.previousHeadHash), (js "updatedAt", .str head.updatedAt)]))

/-- What an append returns. -/
structure Appended where
  duplicate : Bool
  eventId : Option Value
  entryHash : Text
  sequence : Nat
  ledgerCommit : Commit
deriving DecidableEq

/-- `ledgerEntryFiles`, written over the files of a commit. -/
def ledgerEntryFiles (config : Config) (r : Request) (key : IdempotencyKey) (tree : Tree)
    (now : Text) : Tree :=
  let entry := ledgerEntry config r key tree.head now
  let hash := entryHash entry
  { head :=
      { sequence := tree.head.sequence + 1, entryHash := some hash,
        previousHeadHash := some (headHash tree.head), updatedAt := now }
    entries := mapSet tree.entries hash entry
    idempotency := mapSet tree.idempotency key.hash
      { eventId := r.intent.member? (js "eventId"), idempotencyKey := key.value,
        idempotencyHash := key.hash, entryHash := hash, sequence := tree.head.sequence + 1 } }

/-- `commitLedgerEntry` in a worktree of the commit `base`. -/
def commitLedgerEntry (config : Config) (r : Request) (key : IdempotencyKey) (base : Commit)
    (now : Text) : Commit :=
  .child base (ledgerEntryFiles config r key base.tree now)

/-- What is returned for a new commit. -/
def appended (r : Request) (commit : Commit) : Appended where
  duplicate := false
  eventId := r.intent.member? (js "eventId")
  entryHash := commit.tree.head.entryHash.getD []
  sequence := commit.tree.head.sequence
  ledgerCommit := commit

/-- `commitInitialLedgerRoot`. -/
def initialRoot (now : Text) : Commit := .root ⟨⟨0, none, none, now⟩, [], []⟩

/-! ## Processes -/

/-- The refs that `ledgerHead` answers with. -/
inductive RefName
  | tracking
  | branch
deriving DecidableEq

/-- What the atomic attempt has built, and the lease it holds for it. -/
structure Audit where
  lease : Commit
  commit : Commit
  result : Appended

/-- An `ensureRemoteBranchFetchedAsync`: of an append, or, with the root it
could not push, of an initialization. -/
structure Refresh where
  attempt : Nat
  fresh : Bool
  root : Option Commit

/-- Why `updateDirectLocalStateRef` runs. -/
inductive Swap
  /-- The root of an initialization. -/
  | root (attempt : Nat)
  /-- An initialization that another one has won. -/
  | join (attempt : Nat)
  /-- An append without a remote, of a commit on `base`. -/
  | append (attempt : Nat) (base : Commit) (result : Appended)

def Swap.attempt : Swap → Nat
  | root n => n
  | join n => n
  | append n _ _ => n

/-- Where a process stands, and the values it holds there. -/
inductive Phase
  /-- `appendLedgerIntentAtomically` is about to read its base. -/
  | atomic
  | observing (audit : Audit)
  | atomicPush (audit : Audit)
  /-- The outcome of the atomic push is unclear. -/
  | reconciling (audit : Audit)
  /-- `recordStatePublication`: the tracking ref, then the local one. -/
  | recordTracking (audit : Audit)
  | recordLocal (audit : Audit)
  | refresh (f : Refresh)
  | observe (f : Refresh) (before : Option Commit)
  | fetch (f : Refresh) (before : Option Commit) (observed : Commit)
  | track (f : Refresh) (before : Option Commit) (fetched : Commit)
  /-- `ledgerHead` in `appendOnce`. -/
  | head (attempt : Nat)
  /-- `initializeLedger`. -/
  | create (attempt : Nat)
  | rootPush (attempt : Nat) (root : Commit)
  | rootTracking (attempt : Nat) (root : Commit)
  | joining (attempt : Nat) (root : Commit)
  /-- `expectedRemoteSha` is about to be read. -/
  | lease (attempt : Nat) (ref : RefName)
  /-- `git worktree add` is about to resolve the ref. -/
  | checkout (attempt : Nat) (ref : RefName) (lease : Option Commit)
  | build (attempt : Nat) (lease : Option Commit) (base : Commit)
  | publish (attempt : Nat) (lease : Option Commit) (base commit : Commit) (result : Appended)
  /-- The three commands of `updateDirectLocalStateRef`. -/
  | swapBefore (swap : Swap) (expected : Option Commit) (commit : Commit)
  | swapUpdate (swap : Swap) (expected : Option Commit) (commit : Commit)
  | swapAfter (swap : Swap) (commit : Commit)
  | done (result : Appended)
  | failed

/-- The refs of one repository: `refs/remotes/…` and `refs/heads/…`. -/
structure Repository where
  tracking : Option Commit
  branch : Option Commit

def Repository.value (r : Repository) : RefName → Option Commit
  | .tracking => r.tracking
  | .branch => r.branch

section World

variable {Client Repo : Type}

/-- Who appends what, from where.  With an `authority` there is no remote, and
everybody works in that repository. -/
structure Setting (Client Repo : Type) where
  config : Config
  authority : Option Repo
  clone : Client → Repo
  request : Client → Request

def Setting.home (setting : Setting Client Repo) (c : Client) : Repo :=
  setting.authority.getD (setting.clone c)

/-- The values of the remote branch, the present one first; the refs of every
repository; and where every process stands. -/
structure World (Client Repo : Type) where
  remote : List Commit
  repos : Repo → Repository
  phases : Client → Phase

/-- The tip of the state branch. -/
def tip (setting : Setting Client Repo) (w : World Client Repo) : Option Commit :=
  match setting.authority with
  | none => w.remote.head?
  | some repo => (w.repos repo).branch

/-- No branch yet, and nobody has started. -/
def nothing : World Client Repo := ⟨[], fun _ => ⟨none, none⟩, fun _ => .atomic⟩

/-- What the surroundings do to a command. -/
structure Surroundings where
  /-- It succeeds and its answer arrives. -/
  answered : Bool
  /-- It reaches the ref it is to move. -/
  reached : Bool
  now : Text

inductive Action (Client Repo : Type)
  | act (c : Client) (e : Surroundings)
  /-- Git itself moves a tracking ref: after a fetch, or when a push returns. -/
  | track (repo : Repo) (commit : Commit)

variable [DecidableEq Client] [DecidableEq Repo]

def World.goto (w : World Client Repo) (c : Client) (p : Phase) : World Client Repo :=
  { w with phases := Function.update w.phases c p }

def World.setTracking (w : World Client Repo) (repo : Repo) (v : Option Commit) :
    World Client Repo :=
  { w with repos := Function.update w.repos repo { w.repos repo with tracking := v } }

def World.setBranch (w : World Client Repo) (repo : Repo) (v : Option Commit) :
    World Client Repo :=
  { w with repos := Function.update w.repos repo { w.repos repo with branch := v } }

/-- A push with a lease: the values of the branch afterwards, and whether the
branch then holds the commit. -/
def push (remote : List Commit) (lease : Option Commit) (commit : Commit) (reached : Bool) :
    List Commit × Bool :=
  if !reached then (remote, false)
  else if remote.head? = some commit then (remote, true)
  else if remote.head? = lease then (commit :: remote, true)
  else (remote, false)

/-- What a ref holds after `synchronizeRemoteTrackingRefAfterPush` or, without
an expected value, `synchronizeLocalStateRefAfterRemotePush`. -/
def synchronized (current : Option Commit) (commit : Commit) (expected : Option Commit) :
    Option Commit :=
  match current with
  | none => some commit
  | some t =>
      if Commit.isAncestor commit t then current
      else if Commit.isAncestor t commit || (expected.any fun x => Commit.isAncestor t x) then
        some commit
      else current

/-- The next attempt, if it is one of the configured ones. -/
def attemptFrom (config : Config) (attempt : Nat) (fresh : Bool) : Phase :=
  if attempt ≤ config.maxRetries then .refresh ⟨attempt, fresh, none⟩ else .failed

/-- After an error marked concurrent. -/
def retry (config : Config) (attempt : Nat) : Phase := attemptFrom config (attempt + 1) true

/-- After `ensureRemoteBranchFetchedAsync`. -/
def afterRefresh (f : Refresh) (refreshed : Bool) : Phase :=
  match f.root with
  | some root => .joining f.attempt root
  | none => if f.fresh && !refreshed then .failed else .head f.attempt

/-- After `updateDirectLocalStateRef`. -/
def swapped (setting : Setting Client Repo) (commit : Commit) : Swap → Phase
  | .root attempt => if setting.authority.isNone then .rootPush attempt commit else .head attempt
  | .join attempt => .head attempt
  | .append _ _ result => .done result

/-- One command of a process. -/
def act (setting : Setting Client Repo) (w : World Client Repo) (c : Client) (e : Surroundings) :
    Except Unit (World Client Repo) :=
  let repo := setting.home c
  let refs := w.repos repo
  let r := setting.request c
  match w.phases c with
  | .atomic =>
      match setting.authority, refs.tracking, r.key with
      | none, some base, .ok key =>
          if e.answered && (mapGet base.tree.idempotency key.hash).isNone then
            let commit := commitLedgerEntry setting.config r key base e.now
            .ok (w.goto c (.observing ⟨base, commit, appended r commit⟩))
          else .ok (w.goto c (attemptFrom setting.config 1 false))
      | _, _, _ => .ok (w.goto c (attemptFrom setting.config 1 false))
  | .observing audit =>
      if e.answered && w.remote.head? = some audit.lease then .ok (w.goto c (.atomicPush audit))
      else .ok (w.goto c (attemptFrom setting.config 1 false))
  | .atomicPush audit =>
      let pushed := push w.remote (some audit.lease) audit.commit e.reached
      let next :=
        if !e.answered then .reconciling audit
        else if pushed.2 then .recordTracking audit
        else attemptFrom setting.config 1 false
      .ok ({ w with remote := pushed.1 }.goto c next)
  | .reconciling audit =>
      if e.answered && w.remote.head? = some audit.commit then
        .ok (w.goto c (.recordTracking audit))
      else .ok (w.goto c (attemptFrom setting.config 1 true))
  | .recordTracking audit =>
      let v := if e.reached then synchronized refs.tracking audit.commit (some audit.lease)
        else refs.tracking
      .ok ((w.setTracking repo v).goto c (.recordLocal audit))
  | .recordLocal audit =>
      let v := if e.reached then synchronized refs.branch audit.commit none else refs.branch
      .ok ((w.setBranch repo v).goto c (.done audit.result))
  | .refresh f =>
      -- the key of the request is computed before the branch is fetched
      if f.root.isNone && r.key.toOption.isNone then .ok (w.goto c .failed)
      else if setting.authority.isSome then .ok (w.goto c (afterRefresh f false))
      else .ok (w.goto c (.observe f refs.tracking))
  | .observe f before =>
      match e.answered, w.remote.head? with
      | true, some observed =>
          if !f.fresh && before = some observed && e.reached then
            .ok (w.goto c (afterRefresh f true))
          else .ok (w.goto c (.fetch f before observed))
      | _, _ => .ok (w.goto c (afterRefresh f false))
  | .fetch f before observed =>
      match e.answered, w.remote.head? with
      | true, some fetched =>
          if fetched ≠ observed then .ok (w.goto c (retry setting.config f.attempt))
          else if before = some fetched then .ok (w.goto c (afterRefresh f true))
          else .ok (w.goto c (.track f before fetched))
      | _, _ => .ok (w.goto c (afterRefresh f false))
  | .track f before fetched =>
      let v := if e.reached && refs.tracking = before then some fetched else refs.tracking
      let next :=
        if e.answered && v = some fetched then afterRefresh f true
        else retry setting.config f.attempt
      .ok ((w.setTracking repo v).goto c next)
  | .head attempt =>
      match refs.tracking, refs.branch with
      | some _, _ => .ok (w.goto c (.lease attempt .tracking))
      | none, some _ => .ok (w.goto c (.lease attempt .branch))
      | none, none => .ok (w.goto c (.create attempt))
  | .create attempt =>
      match refs.tracking, refs.branch with
      | none, none => .ok (w.goto c (.swapBefore (.root attempt) none (initialRoot e.now)))
      | _, _ => .ok (w.goto c (.head attempt))
  | .rootPush attempt root =>
      let pushed := push w.remote none root e.reached
      let next :=
        if e.answered && pushed.2 then .rootTracking attempt root
        else .refresh ⟨attempt, false, some root⟩
      .ok ({ w with remote := pushed.1 }.goto c next)
  | .rootTracking attempt root =>
      let v := if e.reached then synchronized refs.tracking root none else refs.tracking
      .ok ((w.setTracking repo v).goto c (.head attempt))
  | .joining attempt root =>
      match refs.tracking with
      | some winner => .ok (w.goto c (.swapBefore (.join attempt) (some root) winner))
      | none => .ok (w.goto c .failed)
  | .lease attempt ref => .ok (w.goto c (.checkout attempt ref refs.tracking))
  | .checkout attempt ref lease =>
      match e.answered, refs.value ref with
      | true, some base => .ok (w.goto c (.build attempt lease base))
      | _, _ => .ok (w.goto c .failed)
  | .build attempt lease base =>
      match r.key with
      | .error _ => .ok (w.goto c .failed)
      | .ok key =>
          match mapGet base.tree.idempotency key.hash with
          | some recorded =>
              .ok (w.goto c (.done ⟨true, recorded.eventId, recorded.entryHash, recorded.sequence, base⟩))
          | none =>
              if e.answered then
                let commit := commitLedgerEntry setting.config r key base e.now
                .ok (w.goto c (.publish attempt lease base commit (appended r commit)))
              else .ok (w.goto c .failed)
  | .publish attempt lease base commit result =>
      if setting.authority.isNone then
        let pushed := push w.remote lease commit e.reached
        let next := if e.answered && pushed.2 then .done result else retry setting.config attempt
        .ok ({ w with remote := pushed.1 }.goto c next)
      else .ok (w.goto c (.swapBefore (.append attempt base result) refs.branch commit))
  | .swapBefore swap expected commit =>
      if refs.branch = some commit then .ok (w.goto c (swapped setting commit swap))
      else if refs.branch ≠ expected then .ok (w.goto c (retry setting.config swap.attempt))
      else .ok (w.goto c (.swapUpdate swap expected commit))
  | .swapUpdate swap expected commit =>
      let v := if e.reached && refs.branch = expected then some commit else refs.branch
      .ok ((w.setBranch repo v).goto c (.swapAfter swap commit))
  | .swapAfter swap commit =>
      if !e.answered then .ok (w.goto c .failed)
      else if refs.branch = some commit then .ok (w.goto c (swapped setting commit swap))
      else .ok (w.goto c (retry setting.config swap.attempt))
  | .done _ | .failed => .error ()

/-- One step of the whole. -/
def step (setting : Setting Client Repo) (w : World Client Repo) :
    Action Client Repo → Except Unit (World Client Repo)
  | .act c e => act setting w c e
  | .track repo commit =>
      if setting.authority.isNone ∧ commit ∈ w.remote then .ok (w.setTracking repo (some commit))
      else .error ()

end World

end Ledger

end SingularityFlow
