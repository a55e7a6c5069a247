/-
# Transport intents: the record of one push, and what each answer makes of it

An intent stands for one change of one remote ref, from `expectedRemote` to
`sourceCommit`.  Its record is durable and is rewritten after every command
whose answer matters, so that a retry, possibly after a crash, can tell from it
what an uncertain push may have done: `mayReconcileExactRemote` reads that off
the status, the last attempt and the class of the last failure.

Each function here is one exit of `retryTransportIntent`: the record before and
the answer of a command give the record that is written.  How the exits follow
one another, and what happens at the remote in between, is the subject of
`Transport.Retries`.  Display texts, evidence, receipts of healers and the local
tracking ref are left out: no retry reads them.
-/
import SingularityFlow.Git.Objects

namespace SingularityFlow

open Ecma Git

namespace Transport

/-! ## The record -/

/-- `TRANSPORT_INTENT_STATUSES`. -/
inductive Status where
  | pending
  | pushing
  | succeeded
  | outcomeUnknown
  | remoteDiverged
  | needsUser
  | attemptBudgetExhausted
deriving DecidableEq

/-- The stage of an attempt. -/
inductive Stage where
  | dryRun
  | push
  | verified
  | pushProof
  | verify
deriving DecidableEq

/-- The result of an attempt: still in flight, or the status that it ended in. -/
inductive AttemptResult where
  | inFlight
  | ended (status : Status)
deriving DecidableEq

structure Attempt where
  number : Nat
  stage : Stage
  result : AttemptResult
deriving DecidableEq

structure AttemptBudget where
  used : Nat
  maximum : Nat
deriving DecidableEq

/-- A failure of a remote command, as far as a retry looks at it. -/
structure RemoteFailure where
  classification : Text
  retryable : Bool
deriving DecidableEq

structure Circuit where
  consecutiveFailures : Nat
  openedAt : Option Int
  errorClass : Option Text
deriving DecidableEq

structure Intent where
  sourceCommit : Text
  targetRef : Text
  expectedRemote : Option Text
  status : Status
  observedRemote : Option Text
  fault : Option RemoteFailure
  attempts : List Attempt
  attemptBudget : AttemptBudget
  circuit : Circuit
deriving DecidableEq

def closedCircuit : Circuit := ⟨0, none, none⟩

/-- The record that `createTransportIntent` writes. -/
def createTransportIntent (sourceCommit targetRef : Text) (expectedRemote : Option Text) : Intent where
  sourceCommit := sourceCommit
  targetRef := targetRef
  expectedRemote := expectedRemote
  status := .pending
  observedRemote := none
  fault := none
  attempts := []
  attemptBudget := ⟨0, 2⟩
  circuit := closedCircuit

/-! ## Answers of Git -/

/-- What running a Git command returned.  The runner may have classified a
failure itself. -/
structure CommandResult where
  status : Option Int
  stdout : Text
  stderr : Text
  timedOut : Bool
  aborted : Bool
  outputOverflow : Bool
  signal : Option Text
  failure : Option RemoteFailure
deriving DecidableEq

/-- `/a|b/i.test(text)`, for words of ASCII letters, spaces and hyphens. -/
def mentions (words : List String) (text : Text) : Bool :=
  words.any fun word => (js word).map lowerAscii <:+: text.map lowerAscii

def networkTransient : Text := js "network-transient"

/-- `AUTO_RETRYABLE`. -/
def autoRetryable : List Text := [networkTransient, js "rate-limited"]

section Classification

variable (classifyGitRemoteFailure : CommandResult → RemoteFailure)

def classified (result : CommandResult) : RemoteFailure :=
  let failure := result.failure.getD (classifyGitRemoteFailure result)
  let text := result.stderr ++ js "\n" ++ result.stdout
  if mentions ["non-fast-forward", "fetch first", "stale info"] text then
    { failure with classification := js "remote-diverged", retryable := false }
  else if mentions ["hook declined", "pre-receive hook", "protected branch", "branch protection",
      "GH006"] text then
    { failure with
      classification := if mentions ["hook"] text then js "hook-rejected" else js "branch-protected"
      retryable := false }
  else { failure with retryable := failure.classification ∈ autoRetryable }

end Classification

/-- What a probe of the target ref has shown. -/
inductive Observation where
  | unreadable (result : CommandResult)
  | readable (commit : Option Text)
deriving DecidableEq

/-- The answer of `git ls-remote`.  Two refs, another ref or a malformed line
are no observation. -/
def remoteTargetObservation (intent : Intent) (result : CommandResult) : Observation :=
  if result.status ≠ some 0 then .unreadable result
  else
    match (splitLines result.stdout).filter (· ≠ []) with
    | [] => .readable none
    | [line] =>
        match line.splitOn 0x09 with
        | [commit, ref] =>
            if isObjectId commit && !ref.isEmpty && !ref.elem 0x0D && !ref.elem 0x0A
                && ref = intent.targetRef then .readable (some commit)
            else .unreadable result
        | _ => .unreadable result
    | _ => .unreadable result

/-- `pushTransitionFlag`: the flag of the ref in the porcelain output. -/
def pushTransitionFlag (result : CommandResult) (intent : Intent) : Option Text :=
  let refspecEnd := js ":" ++ intent.targetRef
  let line? := (splitLines result.stdout).find? fun line =>
    match line.splitOn 0x09 with
    | _ :: refspec :: _ => refspecEnd.isSuffixOf refspec
    | _ => false
  line?.bind fun line => (line.splitOn 0x09).head?

/-- The push says that it made the leased transition itself. -/
def pushAcquiredExpectedTransition (result : CommandResult) (intent : Intent) : Bool :=
  result.status = some 0 &&
    (intent.expectedRemote = some intent.sourceCommit ||
      match intent.expectedRemote with
      | none => pushTransitionFlag result intent = some (js "*")
      | some _ => pushTransitionFlag result intent = some (js " ")
          || pushTransitionFlag result intent = some (js "+"))

/-- A push that failed without saying whether the ref was moved. -/
def indeterminatePush (classifyGitRemoteFailure : CommandResult → RemoteFailure)
    (pushed : CommandResult) : Bool :=
  pushed.status ≠ some 0 &&
    (pushed.timedOut || pushed.aborted || pushed.outputOverflow
      || pushed.signal.any (fun signal => signal ≠ [])
      || (classified classifyGitRemoteFailure pushed).classification = networkTransient)

/-! ## The push -/

/-- `git push --force-with-lease=<target>:<expected> <source>:<target>`. -/
structure PushCommand where
  dryRun : Bool
  targetRef : Text
  expected : Option Text
  source : Text

/-- The command of `executeIntentPush`. -/
def executeIntentPush (intent : Intent) (dryRun : Bool) : PushCommand where
  dryRun := dryRun
  targetRef := intent.targetRef
  expected := intent.expectedRemote
  source := intent.sourceCommit

/-- The target ref after the remote has carried out the push: a comparison
with the lease and an update, in one. -/
def PushCommand.carryOut (command : PushCommand) (ref : Option Text) : Option Text :=
  if !command.dryRun && ref = command.expected then some command.source else ref

/-! ## The exits of a retry -/

/-- `circuitAfter`. -/
def circuitAfter (intent : Intent) (failure : RemoteFailure) (now : Int) : Circuit :=
  let consecutiveFailures := intent.circuit.consecutiveFailures + 1
  { consecutiveFailures
    openedAt := if !failure.retryable || 2 ≤ consecutiveFailures then some now else none
    errorClass := some failure.classification }

/-- A ref that is found at `sourceCommit` may be the work of this intent. -/
def mayReconcileExactRemote (intent : Intent) : Bool :=
  if intent.expectedRemote = some intent.sourceCommit then true
  else if intent.attemptBudget.used < 1 then false
  else
    let last := intent.attempts.getLast?
    if intent.status = .pushing then
      last.any fun attempt => attempt.stage = .push && attempt.result = .inFlight
    else
      (last.any fun attempt => attempt.stage = .push &&
        (attempt.result = .ended .pending || attempt.result = .ended .outcomeUnknown)) &&
      intent.fault.any fun fault => fault.classification = networkTransient

/-- The current attempt, with another stage and result. -/
def Intent.endAttempt (intent : Intent) (stage : Stage) (result : AttemptResult) : List Attempt :=
  intent.attempts.map fun entry =>
    if entry.number = intent.attemptBudget.used then { entry with stage, result } else entry

def divergedFault : RemoteFailure := ⟨js "remote-diverged", false⟩

/-- The ref is not where this intent can move it. -/
def Intent.diverged (intent : Intent) (observed : Option Text) : Intent :=
  { intent with status := .remoteDiverged, observedRemote := observed, fault := some divergedFault }

/-- A decision of a retry: a record with which it ends, or one with which it goes on. -/
inductive Decision where
  | finish (intent : Intent)
  | proceed (intent : Intent)

section Exits

variable (classifyGitRemoteFailure : CommandResult → RemoteFailure) (cooldownMs : Int)

/-- The circuit was opened a short time ago. -/
def cooling (intent : Intent) (now : Int) : Bool :=
  intent.circuit.openedAt.any fun openedAt => now - openedAt < cooldownMs

/-- A person who asks again always gets one attempt. -/
def Intent.extendBudget (intent : Intent) (allowNeedsUser : Bool) : Intent :=
  if intent.attemptBudget.maximum ≤ intent.attemptBudget.used && allowNeedsUser then
    { intent with
      attemptBudget := { intent.attemptBudget with maximum := intent.attemptBudget.used + 1 } }
  else intent

/-- The record of an attempt that is about to make its dry run. -/
def Intent.beginAttempt (intent : Intent) : Intent :=
  let number := intent.attemptBudget.used + 1
  { intent with
    status := .pending
    attemptBudget := { intent.attemptBudget with used := number }
    attempts := intent.attempts ++ [⟨number, .dryRun, .inFlight⟩] }

/-- After the probe that a retry begins with. -/
def afterObservation (allowNeedsUser : Bool) (now : Int) (intent : Intent) : Observation → Decision
  | .unreadable result =>
      .finish { intent with
        status := .outcomeUnknown
        fault := some (classified classifyGitRemoteFailure result) }
  | .readable commit =>
      if commit = some intent.sourceCommit then
        if mayReconcileExactRemote intent then
          .finish { intent with status := .succeeded, observedRemote := commit }
        else .finish (intent.diverged commit)
      else if commit ≠ intent.expectedRemote then .finish (intent.diverged commit)
      else if !allowNeedsUser && cooling cooldownMs intent now then
        .finish { intent with status := .pending }
      else
        let intent := intent.extendBudget allowNeedsUser
        if intent.attemptBudget.maximum ≤ intent.attemptBudget.used then
          .finish { intent with status := .attemptBudgetExhausted }
        else .proceed intent.beginAttempt

/-- After the dry run. -/
def afterDryRun (now : Int) (intent : Intent) (dryRun : CommandResult) : Decision :=
  if dryRun.status ≠ some 0 then
    let failure := classified classifyGitRemoteFailure dryRun
    let status : Status :=
      if failure.classification = js "remote-diverged" then .remoteDiverged
      else if failure.retryable then .pending
      else .needsUser
    .finish { intent with
      status
      fault := some failure
      attempts := intent.endAttempt .dryRun (.ended status)
      circuit := circuitAfter intent failure now }
  else
    -- the receipt that a push may be in flight
    .proceed { intent with
      status := .pushing
      attempts := intent.endAttempt .push .inFlight }

/-- After the push and the probe that follows it. -/
def afterPush (now : Int) (intent : Intent) (pushed : CommandResult) (observed : Observation) :
    Intent :=
  let acquired := pushAcquiredExpectedTransition pushed intent
  let failure := classified classifyGitRemoteFailure pushed
  match observed with
  | .readable commit =>
      if commit = some intent.sourceCommit
          && (acquired || indeterminatePush classifyGitRemoteFailure pushed) then
        { intent with
          status := .succeeded
          observedRemote := commit
          fault := none
          attempts := intent.endAttempt .verified (.ended .succeeded)
          circuit := closedCircuit }
      else if commit ≠ intent.expectedRemote then
        { intent.diverged commit with
          attempts := intent.endAttempt .verify (.ended .remoteDiverged) }
      else
        let status : Status := if failure.retryable then .pending else .needsUser
        { intent with
          status
          fault := some failure
          attempts := intent.endAttempt .push (.ended status)
          circuit := circuitAfter intent failure now }
  | .unreadable _ =>
      if acquired then
        -- the porcelain answer proves the transition
        { intent with
          status := .succeeded
          observedRemote := some intent.sourceCommit
          fault := none
          attempts := intent.endAttempt .pushProof (.ended .succeeded)
          circuit := closedCircuit }
      else
        { intent with
          status := .outcomeUnknown
          fault := some failure
          attempts := intent.endAttempt .push (.ended .outcomeUnknown)
          circuit := circuitAfter intent failure now }

end Exits

/-! ## What the exits keep -/

section Kept

variable {intent : Intent}

/-- The record still stands for the same change. -/
def SameChange (intent intent' : Intent) : Prop :=
  intent'.sourceCommit = intent.sourceCommit ∧ intent'.targetRef = intent.targetRef ∧
    intent'.expectedRemote = intent.expectedRemote

/-- Attempts are counted, the last one has the count as its number, and there
are no more than the budget allows. -/
structure Budgeted (intent : Intent) : Prop where
  counted : intent.attempts.length = intent.attemptBudget.used
  last : ∀ attempt ∈ intent.attempts.getLast?, attempt.number = intent.attemptBudget.used
  bounded : intent.attemptBudget.used ≤ intent.attemptBudget.maximum

/-- The last attempt has come to its push. -/
def LastPush (intent : Intent) (result : AttemptResult) : Prop :=
  ∃ attempt, intent.attempts.getLast? = some attempt ∧ attempt.stage = .push ∧
    attempt.result = result

theorem budgeted_createTransportIntent (sourceCommit targetRef : Text)
    (expectedRemote : Option Text) :
    Budgeted (createTransportIntent sourceCommit targetRef expectedRemote) :=
  ⟨rfl, nofun, Nat.zero_le _⟩

/-- A record with the same attempts is budgeted as before. -/
theorem Budgeted.congr {intent' : Intent} (h : Budgeted intent)
    (hattempts : intent'.attempts = intent.attempts)
    (hbudget : intent'.attemptBudget = intent.attemptBudget) : Budgeted intent' :=
  ⟨by rw [hattempts, hbudget]; exact h.counted, by rw [hattempts, hbudget]; exact h.last,
    by rw [hbudget]; exact h.bounded⟩

theorem Budgeted.extendBudget (h : Budgeted intent) (allowNeedsUser : Bool) :
    Budgeted (intent.extendBudget allowNeedsUser) := by
  unfold Intent.extendBudget
  split
  · exact ⟨h.counted, h.last, Nat.le_succ _⟩
  · exact h

theorem Budgeted.beginAttempt (h : Budgeted intent)
    (hroom : ¬ intent.attemptBudget.maximum ≤ intent.attemptBudget.used) :
    Budgeted intent.beginAttempt := by
  refine ⟨?_, fun attempt hlast => ?_, by simpa [Intent.beginAttempt] using hroom⟩
  · rw [Intent.beginAttempt, List.length_append, h.counted, List.length_singleton]
  · rw [Intent.beginAttempt, List.getLast?_concat] at hlast
    obtain rfl := Option.some.inj hlast
    rfl

/-- Ending the current attempt ends the last one. -/
theorem getLast?_endAttempt (h : Budgeted intent) (stage : Stage) (result : AttemptResult) :
    (intent.endAttempt stage result).getLast?
      = intent.attempts.getLast?.map fun attempt => { attempt with stage, result } := by
  rw [Intent.endAttempt, List.getLast?_map]
  cases hlast : intent.attempts.getLast? with
  | none => rfl
  | some attempt => rw [Option.map_some, Option.map_some, if_pos (h.last attempt hlast)]

theorem Budgeted.endAttempt (h : Budgeted intent) {intent' : Intent} {stage : Stage}
    {result : AttemptResult} (hattempts : intent'.attempts = intent.endAttempt stage result)
    (hbudget : intent'.attemptBudget = intent.attemptBudget) : Budgeted intent' := by
  refine ⟨?_, fun attempt hlast => ?_, by rw [hbudget]; exact h.bounded⟩
  · rw [hattempts, hbudget, Intent.endAttempt, List.length_map, h.counted]
  · rw [hattempts, getLast?_endAttempt h] at hlast
    obtain ⟨before, hbefore, rfl⟩ := Option.map_eq_some_iff.mp hlast
    rw [hbudget]
    exact h.last before hbefore

theorem lastPush_endAttempt (h : Budgeted intent) (hused : 0 < intent.attemptBudget.used)
    {intent' : Intent} {result : AttemptResult}
    (hattempts : intent'.attempts = intent.endAttempt .push result) : LastPush intent' result := by
  have hne : intent.attempts ≠ [] := by
    intro hnil
    rw [← h.counted, hnil] at hused
    exact absurd hused (Nat.lt_irrefl 0)
  obtain ⟨attempt, hlast⟩ := Option.isSome_iff_exists.mp (List.getLast?_isSome.mpr hne)
  exact ⟨_, by rw [hattempts, getLast?_endAttempt h, hlast]; rfl, rfl, rfl⟩

/-- A receipt authorises a later retry to recognise the push. -/
theorem mayReconcile_of_receipt (hused : 0 < intent.attemptBudget.used)
    (hstatus : intent.status = .pushing) (hlast : LastPush intent .inFlight) :
    mayReconcileExactRemote intent = true := by
  obtain ⟨attempt, hattempt, hstage, hresult⟩ := hlast
  unfold mayReconcileExactRemote
  split
  · rfl
  · rw [if_neg (by omega)]
    simp [hattempt, hstage, hresult]

/-- So does a push of unknown outcome that failed in transit. -/
theorem mayReconcile_of_transient {result : AttemptResult} {fault : RemoteFailure}
    (hused : 0 < intent.attemptBudget.used) (hstatus : intent.status ≠ .pushing)
    (hlast : LastPush intent result)
    (hresult : result = .ended .pending ∨ result = .ended .outcomeUnknown)
    (hfault : intent.fault = some fault) (hclass : fault.classification = networkTransient) :
    mayReconcileExactRemote intent = true := by
  obtain ⟨attempt, hattempt, hstage, hattempted⟩ := hlast
  unfold mayReconcileExactRemote
  split
  · rfl
  · rw [if_neg (by omega)]
    simp [hattempt, hfault, hstage, hattempted, hresult, hclass]

/-- What recognises a push, other than a receipt: an expected commit that is
the source, or a last push of unknown outcome that failed in transit. -/
theorem of_mayReconcile (h : mayReconcileExactRemote intent = true) :
    intent.expectedRemote = some intent.sourceCommit ∨
      (0 < intent.attemptBudget.used ∧ ((intent.status = .pushing ∧ LastPush intent .inFlight) ∨
        (intent.status ≠ .pushing ∧ ∃ result, LastPush intent result ∧
          (result = .ended .pending ∨ result = .ended .outcomeUnknown)))) := by
  unfold mayReconcileExactRemote at h
  split at h
  · next hexpected => exact .inl hexpected
  · split at h
    · cases h
    · next hused =>
      refine .inr ⟨by omega, ?_⟩
      split at h
      · next hstatus =>
        obtain ⟨attempt, hattempt, hpush⟩ := Option.any_eq_true _ _ |>.mp h
        simp only [Bool.and_eq_true, decide_eq_true_eq] at hpush
        exact .inl ⟨hstatus, attempt, hattempt, hpush.1, hpush.2⟩
      · next hstatus =>
        obtain ⟨hlast, -⟩ := Bool.and_eq_true_iff.mp h
        obtain ⟨attempt, hattempt, hpush⟩ := Option.any_eq_true _ _ |>.mp hlast
        simp only [Bool.and_eq_true, Bool.or_eq_true, decide_eq_true_eq] at hpush
        exact .inr ⟨hstatus, attempt.result, ⟨attempt, hattempt, hpush.1, rfl⟩, hpush.2⟩

end Kept

end Transport

end SingularityFlow
