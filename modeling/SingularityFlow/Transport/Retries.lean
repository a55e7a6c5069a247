/-
# Retries of one transport intent, with crashes

At most one process holds the lease of the intent.  It reads the record, asks
for the target ref, and then, command by command, makes an attempt; each answer
leads to a durable write.  It may die before and after every command and every
write.  Others may change the ref at any time.  A push reaches the remote or
does not, and its answer may say anything, but for one thing: that it moved the
ref from the lease to the commit is only said by a push that did.

The history of the ref is kept beside the state.  No process reads it; it is
what the record is compared with.  The invariant is that a record which stands
for a push that moved the ref, with nobody moving it since, always lets a later
retry recognise the push.  Three exits can lose that, and one can recognise a
push that was never issued; `ProofKept` names these cases.
-/
import SingularityFlow.Transport.Intents
import SingularityFlow.Lib.Run

namespace SingularityFlow

open Ecma Git

namespace Transport

/-! ## Processes and the remote -/

/-- Where the process that holds the lease stands. -/
inductive Process where
  | none
  /-- It has read the record, and checked the repository and the remote. -/
  | checked (allowNeedsUser : Bool)
  | probed (allowNeedsUser : Bool) (observed : Observation)
  /-- The attempt is recorded, and the dry run is next. -/
  | attempting
  | rehearsed (dryRun : CommandResult)
  /-- The receipt is recorded, and the push is next. -/
  | receipted
  | pushed (result : CommandResult)
  | verified (result : CommandResult) (observed : Observation)

/-- What has happened to the target ref. -/
structure History where
  /-- A push of the intent, other than a dry run, was issued. -/
  begun : Bool
  /-- The ref held the commit of the intent after that. -/
  held : Bool
  /-- The last change of the ref was a push of the intent. -/
  moved : Bool

structure World where
  intent : Intent
  ref : Option Text
  process : Process
  history : History

/-- A new intent, whatever the ref holds. -/
def created (intent : Intent) (ref : Option Text) : World :=
  ⟨intent, ref, .none, ⟨false, false, false⟩⟩

inductive Action where
  /-- A retry begins; whether the repository, the remote and the local ref are
  as the record says is up to the surroundings. -/
  | start (allowNeedsUser admitted : Bool)
  | crash
  | probe (result : CommandResult)
  | dryRun (result : CommandResult)
  | push (reached : Bool) (result : CommandResult)
  /-- The next durable write of the process. -/
  | write (now : Int)
  /-- Somebody else gives the ref a value. -/
  | others (commit : Option Text)

/-- The world with the ref and the history after a change. -/
def World.change (w : World) (ref : Option Text) (begun moved : Bool) : World :=
  { w with
    ref
    history := ⟨begun, w.history.held || (begun && ref = some w.intent.sourceCommit), moved⟩ }

section Step

variable (classifyGitRemoteFailure : CommandResult → RemoteFailure) (cooldownMs : Int)

/-- What a process that has decided does next. -/
def World.decided (w : World) (next : Process) : Decision → World
  | .finish intent => { w with intent, process := .none }
  | .proceed intent => { w with intent, process := next }

/-- The ref after the intent's push, if that reaches the remote. -/
def World.pushedRef (w : World) (reached : Bool) : Option Text :=
  if reached then (executeIntentPush w.intent false).carryOut w.ref else w.ref

/-- A readable probe shows what the ref holds. -/
def Faithful (w : World) (observed : Observation) : Prop :=
  match observed with
  | .readable commit => commit = w.ref
  | .unreadable _ => True

instance (w : World) (observed : Observation) : Decidable (Faithful w observed) := by
  unfold Faithful
  split <;> infer_instance

/-- One step of the whole. -/
def step (w : World) : Action → Except Unit World
  | .start allowNeedsUser admitted =>
      match w.process with
      | .none =>
          if !admitted || w.intent.status = .succeeded || w.intent.status = .remoteDiverged
              || (w.intent.status = .needsUser && !allowNeedsUser) then .ok w
          else .ok { w with process := .checked allowNeedsUser }
      | _ => .error ()
  | .crash => .ok { w with process := .none }
  | .probe result =>
      let observed := remoteTargetObservation w.intent result
      if ¬ Faithful w observed then .error ()
      else
        match w.process with
        | .checked allowNeedsUser => .ok { w with process := .probed allowNeedsUser observed }
        | .pushed pushed => .ok { w with process := .verified pushed observed }
        | _ => .error ()
  | .dryRun result =>
      match w.process with
      | .attempting =>
          let ref := (executeIntentPush w.intent true).carryOut w.ref
          .ok { w with ref, process := .rehearsed result }
      | _ => .error ()
  | .push reached result =>
      match w.process with
      | .receipted =>
          let ref := w.pushedRef reached
          -- only the push that made the transition is told so
          if pushAcquiredExpectedTransition result w.intent
              && w.intent.expectedRemote ≠ some w.intent.sourceCommit && ref = w.ref then .error ()
          else
            .ok ({ w with process := .pushed result }.change ref true
              (w.history.moved || ref ≠ w.ref))
      | _ => .error ()
  | .write now =>
      match w.process with
      | .probed allowNeedsUser observed =>
          .ok (w.decided .attempting
            (afterObservation classifyGitRemoteFailure cooldownMs allowNeedsUser now w.intent observed))
      | .rehearsed dryRun =>
          .ok (w.decided .receipted (afterDryRun classifyGitRemoteFailure now w.intent dryRun))
      | .verified pushed observed =>
          .ok { w with
            intent := afterPush classifyGitRemoteFailure now w.intent pushed observed
            process := .none }
      | _ => .error ()
  | .others commit =>
      .ok (w.change commit w.history.begun (w.history.moved && commit = w.ref))

end Step

/-! ## The condition -/

/-- The failure of a push, as far as it was found out, leaves open what it did. -/
def OpenFailure (classifyGitRemoteFailure : CommandResult → RemoteFailure)
    (pushed : CommandResult) : Observation → Prop
  | .unreadable _ => (classified classifyGitRemoteFailure pushed).classification = networkTransient
  | .readable _ => indeterminatePush classifyGitRemoteFailure pushed = true

/-- No exit of the retry loses or invents the proof of a push.

* When a retry cannot read the ref after the intent's own push has moved it,
  the record is no longer the receipt, and the probe failed in transit.
* When a retry finds the commit under a receipt, that push was issued.
* A push that has moved the ref says so, or fails in a way that leaves it open;
  if the ref cannot be read then, it has failed in transit. -/
def ProofKept (classifyGitRemoteFailure : CommandResult → RemoteFailure) (w : World) :
    Action → Prop
  | .write _ =>
      match w.process with
      | .probed _ (.unreadable result) =>
          w.history.moved = true → w.intent.status ≠ .pushing ∧
            (classified classifyGitRemoteFailure result).classification = networkTransient
      | .probed _ (.readable commit) =>
          commit = some w.intent.sourceCommit → w.intent.status = .pushing →
            w.intent.expectedRemote ≠ some w.intent.sourceCommit → w.history.begun = true
      | .verified pushed observed =>
          w.history.moved = true → pushAcquiredExpectedTransition pushed w.intent = true ∨
            OpenFailure classifyGitRemoteFailure pushed observed
      | _ => True
  | _ => True

/-! ## The invariant -/

section Invariant

variable {classifyGitRemoteFailure : CommandResult → RemoteFailure} {cooldownMs : Int}
  {original : Intent} {w w' : World}

/-- What an observation says is still so, as far as the history goes. -/
def Seen (w : World) (observed : Observation) : Prop :=
  ∀ commit, observed = .readable commit →
    (w.history.moved = true → commit = some w.intent.sourceCommit) ∧
    (commit = some w.intent.sourceCommit → w.history.begun = true → w.history.held = true)

/-- The record is the receipt of the current attempt. -/
def Receipt (intent : Intent) : Prop :=
  0 < intent.attemptBudget.used ∧ intent.status = .pushing ∧ LastPush intent .inFlight

def ProcessOk (w : World) : Prop :=
  match w.process with
  | .none => True
  | .checked _ => w.intent.status ≠ .succeeded
  | .probed _ observed => w.intent.status ≠ .succeeded ∧ Seen w observed
  | .attempting | .rehearsed _ => w.history.moved = false ∧ 0 < w.intent.attemptBudget.used
  | .receipted => w.history.moved = false ∧ Receipt w.intent
  | .pushed result => Receipt w.intent ∧ w.history.begun = true ∧
      (pushAcquiredExpectedTransition result w.intent = true →
        w.intent.expectedRemote = some w.intent.sourceCommit ∨ w.history.held = true)
  | .verified result observed => Receipt w.intent ∧ w.history.begun = true ∧
      (pushAcquiredExpectedTransition result w.intent = true →
        w.intent.expectedRemote = some w.intent.sourceCommit ∨ w.history.held = true) ∧
      Seen w observed

/-- What the record must say about the history. -/
structure RecordOk (intent : Intent) (history : History) : Prop where
  budgeted : Budgeted intent
  /-- A push is only recorded as ended when it was issued. -/
  begun : ∀ status, LastPush intent (.ended status) → history.begun = true
  succeeded : intent.status = .succeeded →
    intent.expectedRemote = some intent.sourceCommit ∨ history.held = true
  /-- A push that moved the ref can be recognised. -/
  recognised : history.moved = true → intent.status ≠ .remoteDiverged ∧
    (intent.status = .succeeded ∨ mayReconcileExactRemote intent = true)

structure Inv (original : Intent) (w : World) : Prop where
  same : SameChange original w.intent
  held : w.history.begun = true → w.ref = some w.intent.sourceCommit → w.history.held = true
  moved : w.history.moved = true → w.ref = some w.intent.sourceCommit ∧
    w.intent.expectedRemote ≠ some w.intent.sourceCommit
  record : RecordOk w.intent w.history
  process : ProcessOk w

theorem SameChange.trans {a b c : Intent} (hab : SameChange a b) (hbc : SameChange b c) :
    SameChange a c :=
  ⟨hbc.1.trans hab.1, hbc.2.1.trans hab.2.1, hbc.2.2.trans hab.2.2⟩

/-! ### The exits -/

section Exits

variable {intent : Intent} {history : History}

/-- A rewritten record that keeps the attempts, where no push is to be recognised. -/
theorem RecordOk.rewrite (h : RecordOk intent history) {intent' : Intent}
    (hattempts : intent'.attempts = intent.attempts)
    (hbudget : intent'.attemptBudget = intent.attemptBudget)
    (hstatus : intent'.status ≠ .succeeded) (hunmoved : history.moved = false) :
    RecordOk intent' history where
  budgeted := h.budgeted.congr hattempts hbudget
  begun status := by
    rintro ⟨attempt, hattempt, hpush⟩
    exact h.begun status ⟨attempt, hattempts ▸ hattempt, hpush⟩
  succeeded hs := absurd hs hstatus
  recognised hm := absurd hm (by simp [hunmoved])

/-- What a decision keeps; going on, it has an attempt and nothing to recognise. -/
def DecisionOk (intent : Intent) (history : History) : Decision → Prop
  | .finish intent' => SameChange intent intent' ∧ RecordOk intent' history
  | .proceed intent' => SameChange intent intent' ∧ RecordOk intent' history ∧
      history.moved = false ∧ 0 < intent'.attemptBudget.used

theorem decisionOk_unreadable (h : RecordOk intent history)
    (hmoved : history.moved = true → intent.expectedRemote ≠ some intent.sourceCommit)
    (hstatus : intent.status ≠ .succeeded) {allowNeedsUser : Bool} {now : Int}
    {result : CommandResult}
    (hguard : history.moved = true → intent.status ≠ .pushing ∧
      (classified classifyGitRemoteFailure result).classification = networkTransient) :
    DecisionOk intent history (afterObservation classifyGitRemoteFailure cooldownMs allowNeedsUser
      now intent (.unreadable result)) := by
  refine ⟨⟨rfl, rfl, rfl⟩, h.budgeted.congr rfl rfl, h.begun, nofun, fun hm => ⟨nofun, .inr ?_⟩⟩
  obtain ⟨hpushing, hclass⟩ := hguard hm
  rcases (h.recognised hm).2 with hs | hreconcile
  · exact absurd hs hstatus
  · rcases of_mayReconcile hreconcile with hexpected | ⟨hused, ⟨hs, -⟩ | ⟨-, result', hlast, hended⟩⟩
    · exact absurd hexpected (hmoved hm)
    · exact absurd hs hpushing
    · exact mayReconcile_of_transient hused nofun hlast hended rfl hclass

theorem decisionOk_readable (h : RecordOk intent history)
    (hstatus : intent.status ≠ .succeeded) {allowNeedsUser : Bool} {now : Int}
    {commit : Option Text}
    (hmoved : history.moved = true → commit = some intent.sourceCommit)
    (hheld : commit = some intent.sourceCommit → history.begun = true → history.held = true)
    (hguard : commit = some intent.sourceCommit → intent.status = .pushing →
      intent.expectedRemote ≠ some intent.sourceCommit → history.begun = true) :
    DecisionOk intent history (afterObservation classifyGitRemoteFailure cooldownMs allowNeedsUser
      now intent (.readable commit)) := by
  unfold afterObservation
  dsimp only
  by_cases hcommit : commit = some intent.sourceCommit
  · rw [if_pos hcommit]
    split
    · next hreconcile =>
      -- the push is recognised: it was issued, and the ref has held the commit since
      refine ⟨⟨rfl, rfl, rfl⟩, h.budgeted.congr rfl rfl, h.begun, fun _ => ?_,
        fun _ => ⟨nofun, .inl rfl⟩⟩
      rcases of_mayReconcile hreconcile with hexpected | ⟨-, hpushed⟩
      · exact .inl hexpected
      · by_cases hexpected : intent.expectedRemote = some intent.sourceCommit
        · exact .inl hexpected
        · rcases hpushed with ⟨hs, -⟩ | ⟨-, result, hlast, rfl | rfl⟩
          · exact .inr (hheld hcommit (hguard hcommit hs hexpected))
          · exact .inr (hheld hcommit (h.begun _ hlast))
          · exact .inr (hheld hcommit (h.begun _ hlast))
    · next hreconcile =>
      have hunmoved : history.moved = false := by
        by_contra hm
        rcases (h.recognised (by simpa using hm)).2 with hs | hr
        · exact hstatus hs
        · exact hreconcile hr
      exact ⟨⟨rfl, rfl, rfl⟩, h.rewrite rfl rfl nofun hunmoved⟩
  · have hunmoved : history.moved = false := by
      by_contra hm
      exact hcommit (hmoved (by simpa using hm))
    rw [if_neg hcommit]
    split
    · exact ⟨⟨rfl, rfl, rfl⟩, h.rewrite rfl rfl nofun hunmoved⟩
    · split
      · exact ⟨⟨rfl, rfl, rfl⟩, h.rewrite rfl rfl nofun hunmoved⟩
      · have hbudget := h.budgeted.extendBudget allowNeedsUser
        have hsame : SameChange intent (intent.extendBudget allowNeedsUser) ∧
            (intent.extendBudget allowNeedsUser).attempts = intent.attempts := by
          unfold Intent.extendBudget
          split <;> exact ⟨⟨rfl, rfl, rfl⟩, rfl⟩
        split
        · refine ⟨hsame.1.trans ⟨rfl, rfl, rfl⟩, hbudget.congr rfl rfl, ?_, nofun,
            fun hm => absurd hm (by simp [hunmoved])⟩
          rintro status ⟨attempt, hattempt, hpush⟩
          exact h.begun status ⟨attempt, hsame.2 ▸ hattempt, hpush⟩
        · next hroom =>
          refine ⟨hsame.1.trans ⟨rfl, rfl, rfl⟩, ⟨hbudget.beginAttempt hroom, ?_, nofun,
            fun hm => absurd hm (by simp [hunmoved])⟩, hunmoved, Nat.succ_pos _⟩
          rintro status ⟨attempt, hattempt, hstage, -⟩
          rw [Intent.beginAttempt, List.getLast?_concat] at hattempt
          obtain rfl := Option.some.inj hattempt
          cases hstage

theorem decisionOk_afterDryRun (h : RecordOk intent history) (hunmoved : history.moved = false)
    (hused : 0 < intent.attemptBudget.used) {now : Int} {dryRun : CommandResult} :
    DecisionOk intent history (afterDryRun classifyGitRemoteFailure now intent dryRun) ∧
      ∀ intent', afterDryRun classifyGitRemoteFailure now intent dryRun = .proceed intent' →
        Receipt intent' := by
  unfold afterDryRun
  split
  · refine ⟨⟨⟨rfl, rfl, rfl⟩, h.budgeted.endAttempt rfl rfl, ?_, ?_,
      fun hm => absurd hm (by simp [hunmoved])⟩, nofun⟩
    · rintro status ⟨attempt, hattempt, hstage, -⟩
      rw [getLast?_endAttempt h.budgeted] at hattempt
      obtain ⟨before, -, rfl⟩ := Option.map_eq_some_iff.mp hattempt
      cases hstage
    · intro hs
      dsimp only at hs
      split at hs
      · cases hs
      · split at hs <;> cases hs
  · refine ⟨⟨⟨rfl, rfl, rfl⟩, ⟨h.budgeted.endAttempt rfl rfl, ?_, nofun,
      fun hm => absurd hm (by simp [hunmoved])⟩, hunmoved, hused⟩, ?_⟩
    · rintro status ⟨attempt, hattempt, -, hresult⟩
      rw [getLast?_endAttempt h.budgeted] at hattempt
      obtain ⟨before, -, rfl⟩ := Option.map_eq_some_iff.mp hattempt
      cases hresult
    · intro intent' hproceed
      obtain rfl := Decision.proceed.inj hproceed
      exact ⟨hused, rfl, lastPush_endAttempt h.budgeted hused rfl⟩

theorem recordOk_afterPush (h : RecordOk intent history) (hreceipt : Receipt intent)
    (hbegun : history.begun = true) {now : Int} {pushed : CommandResult} {observed : Observation}
    (hacquired : pushAcquiredExpectedTransition pushed intent = true →
      intent.expectedRemote = some intent.sourceCommit ∨ history.held = true)
    (hseen : ∀ commit, observed = .readable commit →
      (history.moved = true → commit = some intent.sourceCommit) ∧
      (commit = some intent.sourceCommit → history.begun = true → history.held = true))
    (hguard : history.moved = true → pushAcquiredExpectedTransition pushed intent = true ∨
      OpenFailure classifyGitRemoteFailure pushed observed) :
    SameChange intent (afterPush classifyGitRemoteFailure now intent pushed observed) ∧
      RecordOk (afterPush classifyGitRemoteFailure now intent pushed observed) history := by
  cases observed with
  | readable commit =>
      obtain ⟨hcommit, hheld⟩ := hseen commit rfl
      rw [afterPush]
      dsimp only
      split
      · next hsucceeded =>
        obtain ⟨hsource, -⟩ := Bool.and_eq_true_iff.mp hsucceeded
        refine ⟨⟨rfl, rfl, rfl⟩, h.budgeted.endAttempt rfl rfl, fun _ _ => hbegun, fun _ => ?_,
          fun _ => ⟨by rintro ⟨⟩, .inl rfl⟩⟩
        exact .inr (hheld (by simpa using hsource) hbegun)
      · next hfailed =>
        have hunmoved : history.moved = false := by
          by_contra hm
          have hm : history.moved = true := by simpa using hm
          refine hfailed (Bool.and_eq_true_iff.mpr ⟨by simpa using hcommit hm, ?_⟩)
          exact Bool.or_eq_true_iff.mpr (hguard hm)
        split
        · exact ⟨⟨rfl, rfl, rfl⟩, h.budgeted.endAttempt rfl rfl, fun _ _ => hbegun, by rintro ⟨⟩,
            fun hm => absurd hm (by simp [hunmoved])⟩
        · refine ⟨⟨rfl, rfl, rfl⟩, h.budgeted.endAttempt rfl rfl, fun _ _ => hbegun, fun hs => ?_,
            fun hm => absurd hm (by simp [hunmoved])⟩
          dsimp only at hs
          split at hs <;> cases hs
  | unreadable result =>
      rw [afterPush]
      split
      · next hproof =>
        exact ⟨⟨rfl, rfl, rfl⟩, h.budgeted.endAttempt rfl rfl, fun _ _ => hbegun,
          fun _ => hacquired hproof, fun _ => ⟨by rintro ⟨⟩, .inl rfl⟩⟩
      · next hunproved =>
        refine ⟨⟨rfl, rfl, rfl⟩, h.budgeted.endAttempt rfl rfl, fun _ _ => hbegun, by rintro ⟨⟩,
          fun hm => ⟨by rintro ⟨⟩, .inr ?_⟩⟩
        exact mayReconcile_of_transient hreceipt.1 (by rintro ⟨⟩)
          (lastPush_endAttempt h.budgeted hreceipt.1 rfl) (.inr rfl) rfl
          ((hguard hm).resolve_left hunproved)

end Exits

/-! ### The steps -/

/-- A step of a process moves the ref from the lease to the commit, or not at all. -/
def Leased (w w' : World) : Prop :=
  w'.ref = w.ref ∨ (w.ref = w.intent.expectedRemote ∧ w'.ref = some w.intent.sourceCommit)

theorem leased_carryOut (intent : Intent) (dryRun : Bool) (ref : Option Text) :
    (executeIntentPush intent dryRun).carryOut ref = ref ∨
      (ref = intent.expectedRemote ∧
        (executeIntentPush intent dryRun).carryOut ref = some intent.sourceCommit) := by
  unfold PushCommand.carryOut
  split
  · next hlease =>
    obtain ⟨-, hlease⟩ := Bool.and_eq_true_iff.mp hlease
    exact .inr ⟨of_decide_eq_true hlease, rfl⟩
  · exact .inl rfl

theorem leased_pushedRef (w : World) (reached : Bool) :
    w.pushedRef reached = w.ref ∨ (w.ref = w.intent.expectedRemote ∧
      w.pushedRef reached = some w.intent.sourceCommit) := by
  unfold World.pushedRef
  split
  · exact leased_carryOut w.intent false w.ref
  · exact .inl rfl

theorem Inv.rewritten (h : Inv original w) {intent : Intent} (hsame : SameChange w.intent intent)
    (hrecord : RecordOk intent w.history) {process : Process}
    (hprocess : ProcessOk { w with intent, process }) : Inv original { w with intent, process } where
  same := h.same.trans hsame
  held hbegun href := h.held hbegun (by rw [← hsame.1]; exact href)
  moved hm := by
    obtain ⟨href, hexpected⟩ := h.moved hm
    exact ⟨by rw [hsame.1]; exact href, by rw [hsame.1, hsame.2.2]; exact hexpected⟩
  record := hrecord
  process := hprocess

/-- A process that moves on without a write. -/
theorem Inv.goto (h : Inv original w) {process : Process} (hprocess : ProcessOk { w with process }) :
    Inv original { w with process } :=
  h.rewritten ⟨rfl, rfl, rfl⟩ h.record hprocess

/-- A probe that is faithful shows what the history allows. -/
theorem Inv.seen (h : Inv original w) {observed : Observation} (hfaithful : Faithful w observed) :
    Seen w observed := by
  rintro commit rfl
  rw [show commit = w.ref from hfaithful]
  exact ⟨fun hm => (h.moved hm).1, fun href hbegun => h.held hbegun href⟩

theorem Inv.decided (h : Inv original w) {next : Process} {decision : Decision}
    (hdecision : DecisionOk w.intent w.history decision)
    (hnext : ∀ intent, decision = .proceed intent → w.history.moved = false →
      0 < intent.attemptBudget.used → ProcessOk { w with intent, process := next }) :
    Inv original (w.decided next decision) := by
  cases decision with
  | finish intent => exact h.rewritten hdecision.1 hdecision.2 trivial
  | proceed intent =>
      obtain ⟨hsame, hrecord, hunmoved, hused⟩ := hdecision
      exact h.rewritten hsame hrecord (hnext intent rfl hunmoved hused)

theorem inv_created {intent : Intent} (hbudget : Budgeted intent) (hattempts : intent.attempts = [])
    (hstatus : intent.status ≠ .succeeded) (ref : Option Text) :
    Inv intent (created intent ref) where
  same := ⟨rfl, rfl, rfl⟩
  held := nofun
  moved := nofun
  record := {
    budgeted := hbudget
    begun := fun status ⟨attempt, hattempt, _⟩ => by
      rw [created, hattempts] at hattempt
      cases hattempt
    succeeded := fun hs => absurd hs hstatus
    recognised := nofun }
  process := trivial

theorem held_of_ref {ref : Option Text} {moved : Bool} (href : ref = some w.intent.sourceCommit) :
    (w.change ref true moved).history.held = true := by
  subst href
  simp only [World.change, decide_true, Bool.and_self, Bool.or_true]

theorem held_change {ref : Option Text} {begun moved : Bool} (hheld : w.history.held = true) :
    (w.change ref begun moved).history.held = true := by
  simp only [World.change, hheld, Bool.true_or]

/-- The ref and the history after a push, or after somebody else's change. -/
theorem Inv.change (h : Inv original w) {ref : Option Text} {begun moved : Bool}
    (hbegun : w.history.begun = true → begun = true)
    (hmoved : moved = true → ref = some w.intent.sourceCommit ∧
      w.intent.expectedRemote ≠ some w.intent.sourceCommit)
    (hrecognised : moved = true → w.history.moved = true)
    (hprocess : ProcessOk (w.change ref begun moved)) : Inv original (w.change ref begun moved) where
  same := h.same
  held hb href := by
    obtain rfl : begun = true := hb
    exact held_of_ref href
  moved := hmoved
  record := {
    budgeted := h.record.budgeted
    begun := fun status hlast => hbegun (h.record.begun status hlast)
    succeeded := fun hs => (h.record.succeeded hs).imp_right held_change
    recognised := fun hm => h.record.recognised (hrecognised hm) }
  process := hprocess

theorem inv_others (h : Inv original w) (commit : Option Text) :
    Inv original (w.change commit w.history.begun (w.history.moved && commit = w.ref)) := by
  have hmoved : (w.history.moved && decide (commit = w.ref)) = true →
      w.history.moved = true ∧ commit = w.ref := by simp
  have hseen : ∀ observed, Seen w observed →
      Seen (w.change commit w.history.begun (w.history.moved && commit = w.ref)) observed := by
    intro observed hs c hc
    obtain ⟨hm, hheld⟩ := hs c hc
    exact ⟨fun hmv => hm (hmoved hmv).1, fun hsource hb => held_change (hheld hsource hb)⟩
  refine h.change id (fun hm => ?_) (fun hm => (hmoved hm).1) ?_
  · obtain ⟨hm, href⟩ := hmoved hm
    rw [href]
    exact h.moved hm
  · have hp := h.process
    unfold ProcessOk at hp ⊢
    rw [World.change]
    cases hprocess : w.process with
    | none => trivial
    | checked allowNeedsUser =>
        rw [hprocess] at hp
        exact hp
    | probed allowNeedsUser observed =>
        rw [hprocess] at hp
        exact ⟨hp.1, hseen observed hp.2⟩
    | attempting | rehearsed dryRun | receipted =>
        rw [hprocess] at hp
        exact ⟨by simp [hp.1], hp.2⟩
    | pushed result =>
        rw [hprocess] at hp
        exact ⟨hp.1, hp.2.1, fun ha => (hp.2.2 ha).imp_right held_change⟩
    | verified result observed =>
        rw [hprocess] at hp
        exact ⟨hp.1, hp.2.1, fun ha => (hp.2.2.1 ha).imp_right held_change,
          hseen observed hp.2.2.2⟩

/-- The intent's own push, which comes when nothing is to be recognised. -/
theorem inv_push (h : Inv original w) (hprocess : w.process = .receipted) {ref : Option Text}
    {result : CommandResult} (hleased : ref = w.ref ∨ (w.ref = w.intent.expectedRemote ∧
      ref = some w.intent.sourceCommit))
    (hhonest : pushAcquiredExpectedTransition result w.intent = true →
      w.intent.expectedRemote = some w.intent.sourceCommit ∨ ref ≠ w.ref) :
    Inv original ({ w with process := .pushed result }.change ref true
      (w.history.moved || ref ≠ w.ref)) := by
  have hp := h.process
  rw [ProcessOk, hprocess] at hp
  obtain ⟨hunmoved, hreceipt⟩ := hp
  have hmoved : ref ≠ w.ref → ref = some w.intent.sourceCommit ∧
      w.intent.expectedRemote ≠ some w.intent.sourceCommit := by
    intro hne
    obtain ⟨hlease, hsource⟩ := hleased.resolve_left hne
    exact ⟨hsource, fun he => hne (hsource.trans (he.symm.trans hlease.symm))⟩
  have hflag : (w.history.moved || decide (ref ≠ w.ref)) = true → ref ≠ w.ref := by
    simp [hunmoved]
  exact {
    same := h.same
    held := fun _ href => held_of_ref href
    moved := fun hm => hmoved (hflag hm)
    record := {
      budgeted := h.record.budgeted
      begun := fun _ _ => rfl
      succeeded := fun hs => absurd (hreceipt.2.1.symm.trans hs) nofun
      recognised := fun _ => ⟨fun hs => absurd (hreceipt.2.1.symm.trans hs) nofun,
        .inr (mayReconcile_of_receipt hreceipt.1 hreceipt.2.1 hreceipt.2.2)⟩ }
    process := ⟨hreceipt, rfl, fun ha => (hhonest ha).imp_right fun hne =>
      held_of_ref (hmoved hne).1⟩ }

theorem step_kept (h : Inv original w) {a : Action}
    (hguard : ProofKept classifyGitRemoteFailure w a)
    (hstep : step classifyGitRemoteFailure cooldownMs w a = .ok w') :
    Inv original w' ∧ ((∃ commit, a = .others commit) ∨ Leased w w') := by
  have hp := h.process
  cases a with
  | start allowNeedsUser admitted =>
      rw [step] at hstep
      split at hstep
      · split at hstep
        · obtain rfl := Except.ok.inj hstep
          exact ⟨h, .inr (.inl rfl)⟩
        · next hadmitted =>
          obtain rfl := Except.ok.inj hstep
          simp only [Bool.or_eq_true, not_or, decide_eq_true_eq] at hadmitted
          exact ⟨h.goto hadmitted.1.1.2, .inr (.inl rfl)⟩
      · cases hstep
  | crash =>
      obtain rfl := Except.ok.inj hstep
      exact ⟨h.goto trivial, .inr (.inl rfl)⟩
  | probe result =>
      rw [step] at hstep
      split at hstep
      · cases hstep
      · next hfaithful =>
        have hseen := h.seen (not_not.mp hfaithful)
        split at hstep
        · next hprocess =>
          rw [ProcessOk, hprocess] at hp
          obtain rfl := Except.ok.inj hstep
          exact ⟨h.goto ⟨hp, hseen⟩, .inr (.inl rfl)⟩
        · next hprocess =>
          rw [ProcessOk, hprocess] at hp
          obtain rfl := Except.ok.inj hstep
          exact ⟨h.goto ⟨hp.1, hp.2.1, hp.2.2, hseen⟩, .inr (.inl rfl)⟩
        · cases hstep
  | dryRun result =>
      rw [step] at hstep
      split at hstep
      · next hprocess =>
        rw [ProcessOk, hprocess] at hp
        obtain rfl := Except.ok.inj hstep
        exact ⟨h.goto hp, .inr (.inl rfl)⟩
      · cases hstep
  | push reached result =>
      rw [step] at hstep
      split at hstep
      · next hprocess =>
        dsimp only at hstep
        split at hstep
        · cases hstep
        · next hhonest =>
          obtain rfl := Except.ok.inj hstep
          have hmoves := leased_pushedRef w reached
          refine ⟨inv_push h hprocess hmoves fun ha => ?_, .inr hmoves⟩
          by_contra hne
          rw [not_or, not_not] at hne
          exact hhonest (by simp [ha, hne.1, hne.2])
      · cases hstep
  | write now =>
      rw [step] at hstep
      split at hstep
      · next allowNeedsUser observed hprocess =>
        rw [ProcessOk, hprocess] at hp
        rw [ProofKept, hprocess] at hguard
        obtain ⟨hstatus, hseen⟩ := hp
        obtain rfl := Except.ok.inj hstep
        have hdecision : DecisionOk w.intent w.history (afterObservation classifyGitRemoteFailure
            cooldownMs allowNeedsUser now w.intent observed) := by
          cases observed with
          | unreadable result =>
              exact decisionOk_unreadable h.record (fun hm => (h.moved hm).2) hstatus hguard
          | readable commit =>
              obtain ⟨hm, hheld⟩ := hseen commit rfl
              exact decisionOk_readable h.record hstatus hm hheld hguard
        refine ⟨h.decided hdecision fun intent _ hunmoved hused => ⟨hunmoved, hused⟩, .inr (.inl ?_)⟩
        unfold World.decided
        split <;> rfl
      · next dryRun hprocess =>
        rw [ProcessOk, hprocess] at hp
        obtain rfl := Except.ok.inj hstep
        have hkept : DecisionOk w.intent w.history
            (afterDryRun classifyGitRemoteFailure now w.intent dryRun) ∧ _ :=
          decisionOk_afterDryRun h.record hp.1 hp.2
        obtain ⟨hdecision, hreceipt⟩ := hkept
        refine ⟨h.decided hdecision fun intent hproceed hunmoved _ =>
          ⟨hunmoved, hreceipt intent hproceed⟩, .inr (.inl ?_)⟩
        unfold World.decided
        split <;> rfl
      · next pushed observed hprocess =>
        rw [ProcessOk, hprocess] at hp
        rw [ProofKept, hprocess] at hguard
        obtain ⟨hreceipt, hbegun, hacquired, hseen⟩ := hp
        obtain rfl := Except.ok.inj hstep
        obtain ⟨hsame, hrecord⟩ := recordOk_afterPush h.record hreceipt hbegun hacquired hseen hguard
        exact ⟨h.rewritten hsame hrecord trivial, .inr (.inl rfl)⟩
      · cases hstep
  | others commit =>
      obtain rfl := Except.ok.inj hstep
      exact ⟨inv_others h commit, .inl ⟨commit, rfl⟩⟩

/-! ### The budget -/

/-- No person asks for this retry. -/
def Unattended : Action → Prop
  | .start allowNeedsUser _ => allowNeedsUser = false
  | _ => True

/-- The process that holds the lease was not started by a person. -/
def AloneOk (w : World) : Prop :=
  match w.process with
  | .checked allowNeedsUser | .probed allowNeedsUser _ => allowNeedsUser = false
  | _ => True

theorem maximum_afterObservation {intent intent' : Intent} {now : Int} {observed : Observation}
    (h : afterObservation classifyGitRemoteFailure cooldownMs false now intent observed
        = .finish intent' ∨
      afterObservation classifyGitRemoteFailure cooldownMs false now intent observed
        = .proceed intent') :
    intent'.attemptBudget.maximum = intent.attemptBudget.maximum := by
  have hextend : intent.extendBudget false = intent := by
    unfold Intent.extendBudget
    rw [if_neg (by simp)]
  cases observed with
  | unreadable result =>
      rcases h with h | h
      · obtain rfl := Decision.finish.inj h
        rfl
      · cases h
  | readable commit =>
      rw [afterObservation, hextend] at h
      dsimp only at h
      split_ifs at h <;> rcases h with h | h <;> cases h <;> rfl

theorem maximum_afterPush {intent : Intent} {now : Int} {pushed : CommandResult}
    {observed : Observation} :
    (afterPush classifyGitRemoteFailure now intent pushed observed).attemptBudget
      = intent.attemptBudget := by
  cases observed with
  | readable commit =>
      rw [afterPush]
      dsimp only
      split_ifs <;> rfl
  | unreadable result =>
      rw [afterPush]
      split_ifs <;> rfl

/-- Without a person, a step leaves the bound of the attempts as it is. -/
theorem step_alone (h : AloneOk w) {a : Action} (ha : Unattended a)
    (hstep : step classifyGitRemoteFailure cooldownMs w a = .ok w') :
    AloneOk w' ∧ w'.intent.attemptBudget.maximum = w.intent.attemptBudget.maximum := by
  cases a with
  | start allowNeedsUser admitted =>
      rw [step] at hstep
      split at hstep
      · split at hstep
        · obtain rfl := Except.ok.inj hstep
          exact ⟨h, rfl⟩
        · obtain rfl := Except.ok.inj hstep
          exact ⟨ha, rfl⟩
      · cases hstep
  | crash =>
      obtain rfl := Except.ok.inj hstep
      exact ⟨trivial, rfl⟩
  | probe result =>
      rw [step] at hstep
      split at hstep
      · cases hstep
      · split at hstep
        · next hprocess =>
          rw [AloneOk, hprocess] at h
          obtain rfl := Except.ok.inj hstep
          exact ⟨h, rfl⟩
        · obtain rfl := Except.ok.inj hstep
          exact ⟨trivial, rfl⟩
        · cases hstep
  | dryRun result =>
      rw [step] at hstep
      split at hstep
      · obtain rfl := Except.ok.inj hstep
        exact ⟨trivial, rfl⟩
      · cases hstep
  | push reached result =>
      rw [step] at hstep
      split at hstep
      · dsimp only at hstep
        split at hstep
        · cases hstep
        · obtain rfl := Except.ok.inj hstep
          exact ⟨trivial, rfl⟩
      · cases hstep
  | write now =>
      rw [step] at hstep
      split at hstep
      · next allowNeedsUser observed hprocess =>
        rw [AloneOk, hprocess] at h
        obtain rfl : allowNeedsUser = false := h
        obtain rfl := Except.ok.inj hstep
        cases hdecision : afterObservation classifyGitRemoteFailure cooldownMs false now w.intent
            observed with
        | finish intent => exact ⟨trivial, maximum_afterObservation (.inl hdecision)⟩
        | proceed intent => exact ⟨trivial, maximum_afterObservation (.inr hdecision)⟩
      · next dryRun hprocess =>
        obtain rfl := Except.ok.inj hstep
        unfold afterDryRun
        split <;> exact ⟨trivial, rfl⟩
      · obtain rfl := Except.ok.inj hstep
        exact ⟨trivial, congrArg AttemptBudget.maximum maximum_afterPush⟩
      · cases hstep
  | others commit =>
      obtain rfl := Except.ok.inj hstep
      exact ⟨h, rfl⟩

end Invariant

/-! ## Runs -/

section Runs

variable {classifyGitRemoteFailure : CommandResult → RemoteFailure} {cooldownMs : Int}
  {original : Intent} {past : List (World × Action)} {w : World}

/-- What a transport intent promises, in a run that has come to `w`. -/
structure TransportKept (classifyGitRemoteFailure : CommandResult → RemoteFailure)
    (cooldownMs : Int) (original : Intent) (past : List (World × Action)) (w : World) : Prop where
  /-- The intent changes the ref from `expectedRemote` to `sourceCommit` only. -/
  leased : ∀ entry ∈ past, ∀ v,
    step classifyGitRemoteFailure cooldownMs entry.1 entry.2 = .ok v →
      (∃ commit, entry.2 = .others commit) ∨ v.ref = entry.1.ref ∨
        (entry.1.ref = original.expectedRemote ∧ v.ref = some original.sourceCommit)
  /-- It succeeds only if the ref held the commit after its push had begun. -/
  succeeded : w.intent.status = .succeeded →
    original.expectedRemote = some original.sourceCommit ∨ w.history.held = true
  /-- Where its own push moved the ref, and nobody since, it has not diverged. -/
  recognised : w.history.moved = true → w.intent.status ≠ .remoteDiverged
  /-- The attempts stay within the budget, -/
  attempts : w.intent.attempts.length ≤ w.intent.attemptBudget.maximum
  /-- which only a person extends. -/
  unattended : (∀ entry ∈ past, Unattended entry.2) →
    w.intent.attempts.length ≤ original.attemptBudget.maximum

end Runs

/-! ## Pushes -/

def Action.isPush : Action → Bool
  | .push _ _ => true
  | _ => false

/-- A person asks for this retry. -/
def Action.isAsked : Action → Bool
  | .start allowNeedsUser _ => allowNeedsUser
  | _ => false

/-- An attempt that is counted and has not come to its push. -/
def Process.unpushed : Process → Nat
  | .attempting | .rehearsed _ | .receipted => 1
  | _ => 0

/-- The retry of a person, which may still extend the budget. -/
def Process.mayExtend : Process → Nat
  | .checked allowNeedsUser | .probed allowNeedsUser _ => allowNeedsUser.toNat
  | _ => 0

section Pushes

variable {classifyGitRemoteFailure : CommandResult → RemoteFailure} {cooldownMs : Int}
  {past : List (World × Action)} {w w' : World} {a : Action}

/-- Each push belongs to an attempt, and a person asks for each attempt beyond the first two. -/
structure Paid (past : List (World × Action)) (w : World) : Prop where
  pushes : past.countP (·.2.isPush) + w.process.unpushed ≤ w.intent.attemptBudget.used
  used : w.intent.attemptBudget.used ≤ w.intent.attemptBudget.maximum
  maximum : w.intent.attemptBudget.maximum + w.process.mayExtend ≤ 2 + past.countP (·.2.isAsked)

theorem budget_extendBudget {intent : Intent} (allowNeedsUser : Bool)
    (h : intent.attemptBudget.used ≤ intent.attemptBudget.maximum) :
    let extended := (intent.extendBudget allowNeedsUser).attemptBudget
    extended.used = intent.attemptBudget.used ∧ extended.used ≤ extended.maximum ∧
      extended.maximum ≤ intent.attemptBudget.maximum + allowNeedsUser.toNat := by
  unfold Intent.extendBudget
  split
  · next hmore =>
    obtain rfl := (Bool.and_eq_true_iff.mp hmore).2
    exact ⟨rfl, Nat.le_succ _, Nat.succ_le_succ h⟩
  · exact ⟨rfl, h, Nat.le_add_right ..⟩

/-- After a probe: an attempt that begins is counted, and within the budget. -/
theorem Paid.observed (h : Paid past w) {allowNeedsUser : Bool} {observed : Observation} {now : Int}
    (hprocess : w.process = .probed allowNeedsUser observed) :
    Paid ((w, .write now) :: past) (w.decided .attempting (afterObservation classifyGitRemoteFailure
      cooldownMs allowNeedsUser now w.intent observed)) := by
  obtain ⟨hpushes, hused, hmaximum⟩ := h
  have hextended := budget_extendBudget allowNeedsUser hused
  rw [hprocess] at hpushes hmaximum
  cases observed <;> constructor <;>
    grind [afterObservation, World.decided, Intent.diverged, Intent.beginAttempt, Action.isPush,
      Action.isAsked, Process.unpushed, Process.mayExtend]

theorem Paid.step (h : Paid past w) (hstep : step classifyGitRemoteFailure cooldownMs w a = .ok w') :
    Paid ((w, a) :: past) w' := by
  have hgoto : w'.intent.attemptBudget = w.intent.attemptBudget →
      a.isPush.toNat + w'.process.unpushed ≤ w.process.unpushed →
      w'.process.mayExtend ≤ w.process.mayExtend + a.isAsked.toNat → Paid ((w, a) :: past) w' := by
    obtain ⟨hpushes, hused, hmaximum⟩ := h
    intro hbudget hpush hextend
    refine ⟨?_, hbudget ▸ hused, ?_⟩ <;> grind [Bool.toNat]
  cases a with
  | write now =>
      rw [Transport.step] at hstep
      split at hstep
      · next hprocess =>
        obtain rfl := Except.ok.inj hstep
        exact h.observed hprocess
      · next dryRun hprocess =>
        obtain rfl := Except.ok.inj hstep
        apply hgoto <;> grind [afterDryRun, World.decided, Action.isPush, Process.unpushed, Process.mayExtend]
      · obtain rfl := Except.ok.inj hstep
        exact hgoto maximum_afterPush (Nat.zero_le _) (Nat.zero_le _)
      · cases hstep
  | _ =>
      -- the record stays, and only an attempt comes to its push
      apply hgoto <;> grind [Transport.step, World.change, Action.isPush, Action.isAsked, Process.unpushed,
        Process.mayExtend]

/-- **No push without an attempt, and no third attempt without a person**: in every run,
whatever its crashes and answers, there are at most as many pushes as attempts, and at most
two attempts more than retries that a person asked for. -/
theorem run_paid {sourceCommit targetRef : Text} {expectedRemote ref : Option Text}
    (h : Run (Transport.step classifyGitRemoteFailure cooldownMs)
      (created (createTransportIntent sourceCommit targetRef expectedRemote) ref) past w) :
    past.countP (·.2.isPush) ≤ w.intent.attemptBudget.used ∧
      w.intent.attemptBudget.used ≤ 2 + past.countP (·.2.isAsked) := by
  have hpaid := h.invariant Paid (fun _ _ => True) (fun _ _ => trivial)
    ⟨Nat.zero_le _, Nat.zero_le _, Nat.le_refl _⟩ fun hpaid _ hstep => hpaid.step hstep
  obtain ⟨hpushes, hused, hmaximum⟩ := hpaid
  omega

end Pushes

/-! ## One intent, whose push moves the ref -/

def sampleCommit : Text := List.replicate 40 0x61

def sampleRef : Text := js "refs/heads/review"

/-- A new branch is to be pushed. -/
def sampleIntent : Intent := createTransportIntent sampleCommit sampleRef none

/-- The failures of the sample are all failures in transit. -/
def transientFailure (_ : CommandResult) : RemoteFailure := ⟨networkTransient, true⟩

/-- A command that ended well, with this output. -/
def answered (stdout : Text) : CommandResult := ⟨some 0, stdout, [], false, false, false, none, none⟩

/-- The porcelain answer to the push that made the branch. -/
def acknowledged : CommandResult :=
  answered (js "*\t" ++ sampleCommit ++ js ":" ++ sampleRef ++ js "\t[new branch]\nDone\n")

/-- The line that shows the branch at the commit. -/
def shown : CommandResult := answered (sampleCommit ++ js "\t" ++ sampleRef ++ js "\n")

def unreachable : CommandResult :=
  { answered [] with status := some 128, stderr := js "fatal: network is unreachable" }

def sampleStep : World → Action → Except Unit World := step transientFailure 30000

/-- A retry whose push answers nothing is one push in one attempt. -/
theorem run_paid_single : ∃ past w, Run sampleStep (created sampleIntent none) past w ∧
    past.countP (·.2.isPush) = 1 ∧
    (past.countP (·.2.isPush) ≤ w.intent.attemptBudget.used ∧
      w.intent.attemptBudget.used ≤ 2 + past.countP (·.2.isAsked)) := by
  have begun : Run sampleStep (created sampleIntent none) [] (created sampleIntent none) := .start
  have asked := (begun.step (a := Action.start false true) rfl).step (a := Action.probe (answered [])) rfl
  have rehearsed := (asked.step (a := Action.write 0) rfl).step (a := Action.dryRun (answered [])) rfl
  have pushed := (rehearsed.step (a := Action.write 0) rfl).step (a := Action.push true acknowledged) rfl
  exact ⟨_, _, pushed, rfl, run_paid pushed⟩

end Transport

end SingularityFlow
