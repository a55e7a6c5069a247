/-
# Integrity of work-interval baselines

The record and the interval agree after every call (`Agrees`), and neither
the identity of the interval nor the commit it is measured from ever changes.
The seal is another matter.  Opening and amending compute it anew;
`acknowledgeAmendment` writes two fields of the core and leaves it as it was.
So a run carries one bit: whether the last write sealed the record.
-/
import SingularityFlow.Intervals.Baseline

namespace SingularityFlow

open Ecma

namespace WorkIntervals

/-! ## What each call does -/

theorem openFor_eq_some_iff {world : World} {phaseId : Text} {current : Interval} :
    openFor world phaseId = some current ↔
      world.current = some current ∧ current.phaseId = phaseId ∧ current.status = .open := by
  simp [openFor, Option.filter_eq_some_iff]

/-- The call opens an interval: the one of the phase and generation is not open. -/
def opens (workflow : Facts) (options : Opening) (world : World) : Bool :=
  match activePhase workflow options.phaseId with
  | .error _ => false
  | .ok phase =>
      match generationFor phase with
      | .error _ => false
      | .ok generation =>
          options.phaseId ≠ [] && phaseUsesWorkInterval phase
            && !world.current.any (isOpenFor · phase generation)

/-- The call amends an interval. -/
def amends (options : AmendOptions) (world : World) : Bool := (openFor world options.phaseId).isSome

/-- The call records an acknowledgement: it reaches further than the last one. -/
def records (options : AcknowledgeOptions) (world : World) : Bool :=
  (openFor world options.phaseId).any fun current =>
    ((current.amendments.getD []).getLast?.bind
      fun last => acknowledgementTarget options last.toGeneration).any
        fun target => current.acknowledgedGeneration.getD 0 < target

theorem ensureWorkIntervalBaseline_cases {workflow : Facts} {options : Opening}
    {world world' : World} {result : Option Interval}
    (h : ensureWorkIntervalBaseline workflow options world = .ok (result, world')) :
    (opens workflow options world = false ∧ world' = world) ∨
    (opens workflow options world = true ∧ ∃ phase generation current,
      activePhase workflow options.phaseId = .ok phase ∧
        openInterval workflow phase options generation world = (current, world') ∧
          result = some current) := by
  unfold ensureWorkIntervalBaseline at h
  by_cases hid : options.phaseId = []
  · rw [if_pos hid] at h
    obtain ⟨-, rfl⟩ := Prod.mk.inj (Except.ok.inj h)
    refine .inl ⟨?_, rfl⟩
    unfold opens
    split
    · rfl
    · split <;> simp [hid]
  rw [if_neg hid] at h
  obtain ⟨phase, hphase, h⟩ := bind_eq_ok_iff.mp h
  simp only [opens, hphase]
  cases huses : phaseUsesWorkInterval phase with
  | false =>
      rw [huses, if_pos rfl] at h
      obtain ⟨-, rfl⟩ := Prod.mk.inj (Except.ok.inj h)
      refine .inl ⟨?_, rfl⟩
      split <;> simp
  | true =>
      rw [huses, if_neg (by simp)] at h
      obtain ⟨generation, hgeneration, h⟩ := bind_eq_ok_iff.mp h
      simp only [hgeneration]
      cases hopen : world.current.any (isOpenFor · phase generation) with
      | true =>
          rw [hopen, if_pos rfl] at h
          obtain ⟨-, rfl⟩ := Prod.mk.inj (Except.ok.inj h)
          exact .inl ⟨by simp, rfl⟩
      | false =>
          rw [hopen, if_neg (by simp)] at h
          obtain ⟨-, -, h⟩ := bind_eq_ok_iff.mp h
          obtain ⟨hresult, hworld⟩ := Prod.mk.inj (Except.ok.inj h)
          exact .inr ⟨by simp [hid], phase, generation, _, rfl,
            Prod.ext rfl hworld, hresult.symm⟩

theorem readBaseline_eq_ok_iff {workflow : Facts} {world : World} {path : Text}
    {record : Baseline} :
    readBaseline workflow world path = .ok record ↔ baselineFile world path = some record := by
  unfold readBaseline
  split <;> simp_all

theorem amendWorkIntervalBaseline_cases {workflow : Facts} {options : AmendOptions}
    {world world' : World} {result : Option Interval}
    (h : amendWorkIntervalBaseline workflow options world = .ok (result, world')) :
    (amends options world = false ∧ world' = world) ∨
    (amends options world = true ∧ ∃ current toGeneration record,
      openFor world options.phaseId = some current ∧ current.generation < toGeneration ∧
        baselineFile world current.path = some record ∧
          world' = (applyAmendment options toGeneration current record world).2) := by
  unfold amendWorkIntervalBaseline at h
  unfold amends
  split at h
  · next hopen =>
    obtain ⟨-, rfl⟩ := Prod.mk.inj (Except.ok.inj h)
    exact .inl ⟨by rw [hopen]; rfl, rfl⟩
  · next current hopen =>
    split at h
    · cases h
    · next toGeneration _ =>
      simp only [bind_eq_ok_iff, failIf_eq_ok_iff, exists_const, not_le, Except.ok.injEq,
        readBaseline_eq_ok_iff] at h
      obtain ⟨hlt, record, hrecord, h⟩ := h
      obtain ⟨-, rfl⟩ := Prod.mk.inj h
      exact .inr ⟨by rw [hopen]; rfl, current, toGeneration, record, hopen, hlt, hrecord, rfl⟩

theorem acknowledgeAmendment_cases {workflow : Facts} {options : AcknowledgeOptions}
    {world world' : World} {result : Option Acknowledged}
    (h : acknowledgeAmendment workflow options world = .ok (result, world')) :
    (records options world = false ∧ world' = world) ∨
    (records options world = true ∧ ∃ current target record,
      openFor world options.phaseId = some current ∧
        baselineFile world current.path = some record ∧
          world' = (applyAcknowledgement options target current record world).2) := by
  unfold acknowledgeAmendment at h
  unfold records
  split at h
  · next hopen =>
    obtain ⟨-, rfl⟩ := Prod.mk.inj (Except.ok.inj h)
    exact .inl ⟨by rw [hopen]; rfl, rfl⟩
  · next current hopen =>
    split at h
    · cases h
    · next last hlast =>
      dsimp only at h
      split at h
      · cases h
      · next target htarget =>
        obtain ⟨-, -, h⟩ := bind_eq_ok_iff.mp h
        split at h
        · next hle =>
          obtain ⟨-, rfl⟩ := Prod.mk.inj (Except.ok.inj h)
          refine .inl ⟨?_, rfl⟩
          simp [hopen, hlast, htarget, hle]
        · next hlt =>
          simp only [bind_eq_ok_iff, Except.ok.injEq, readBaseline_eq_ok_iff] at h
          obtain ⟨record, hrecord, h⟩ := h
          obtain ⟨-, rfl⟩ := Prod.mk.inj h
          refine .inr ⟨?_, current, target, record, hopen, hrecord, rfl⟩
          simp only [hopen, hlast, htarget, Option.any_some, Option.bind_some, decide_eq_true_eq]
          exact Int.lt_of_not_ge hlt

/-! ## Record and interval -/

/-- What a record pins besides its interval. -/
structure Terms where
  workId : Text
  phaseId : Text
  requiredChecksSha256 : Text
  policySha256 : Text

/-- The terms that verification expects of a phase. -/
def termsOf (workflow : Facts) (phase : Phase) : Terms where
  workId := workflow.workItem.id
  phaseId := phase.id
  requiredChecksSha256 := prefixedHash (textsJson (requiredChecks workflow))
  policySha256 := prefixedHash (intervalPolicy workflow phase).json

/-- The record of an interval repeats what the interval says. -/
structure Matches (current : Interval) (record : Baseline) : Prop where
  path : record.path = current.path
  intervalId : record.core.intervalId = current.intervalId
  phaseId : record.core.phaseId = current.phaseId
  generation : record.core.generation = current.generation
  sourceBaseCommit : record.core.sourceBaseCommit = current.sourceBaseCommit
  baselineSha256 : record.baselineSha256 = current.baselineSha256

/-- The record pins the given terms. -/
structure Pins (terms : Terms) (record : Baseline) : Prop where
  kind : record.core.kind = js "work-interval-baseline"
  workId : record.core.workId = terms.workId
  phaseId : record.core.phaseId = terms.phaseId
  requiredChecksSha256 : record.core.requiredChecksSha256 = terms.requiredChecksSha256
  policySha256 : record.core.policySha256 = terms.policySha256

/-- The stored hash is the one of the core. -/
def SealedRecord (record : Baseline) : Prop :=
  record.baselineSha256 = hash (baselineCore record).json

/-- The interval that is open, and its record. -/
structure Agrees (terms : Terms) (opened : Interval) (world : World) (current : Interval)
    (record : Baseline) : Prop where
  held : world.current = some current
  file : baselineFile world current.path = some record
  status : current.status = .open
  matching : Matches current record
  pins : Pins terms record
  intervalId : current.intervalId = opened.intervalId
  sourceBaseCommit : current.sourceBaseCommit = opened.sourceBaseCommit

theorem activePhase_id {workflow : Facts} {phaseId : Text} {phase : Phase}
    (h : activePhase workflow phaseId = .ok phase) : phase.id = phaseId := by
  unfold activePhase at h
  split at h
  · next found hfound =>
    obtain rfl := Except.ok.inj h
    simpa using List.find?_some hfound
  · cases h

theorem agrees_openInterval {workflow : Facts} {phase : Phase} {options : Opening}
    {generation : Nat} {world world' : World} {current : Interval}
    (h : openInterval workflow phase options generation world = (current, world')) :
    ∃ record, Agrees (termsOf workflow phase) current world' current record ∧
      SealedRecord record := by
  obtain ⟨rfl, rfl⟩ := Prod.mk.inj h
  exact ⟨_, ⟨rfl, mapGet_mapSet_self .., rfl, ⟨rfl, rfl, rfl, rfl, rfl, rfl⟩,
    ⟨rfl, rfl, rfl, rfl, rfl⟩, rfl, rfl⟩, rfl⟩

variable {terms : Terms} {opened current : Interval} {record : Baseline} {world : World}

/-- **An amendment** moves both copies of the generation, and seals the record. -/
theorem Agrees.amend (h : Agrees terms opened world current record) (options : AmendOptions)
    (toGeneration : Int) :
    ∃ current' record', Agrees terms opened
        (applyAmendment options toGeneration current record world).2 current' record' ∧
      SealedRecord record' :=
  ⟨_, _, ⟨rfl, mapGet_mapSet_self .., h.status,
    ⟨h.matching.path, h.matching.intervalId, h.matching.phaseId, rfl, h.matching.sourceBaseCommit,
      rfl⟩,
    ⟨h.pins.kind, h.pins.workId, h.pins.phaseId, h.pins.requiredChecksSha256,
      h.pins.policySha256⟩, h.intervalId, h.sourceBaseCommit⟩, rfl⟩

/-- **An acknowledgement** keeps the copies in agreement.  Nothing is said of
the seal. -/
theorem Agrees.acknowledge (h : Agrees terms opened world current record)
    (options : AcknowledgeOptions) (target : Int) :
    ∃ current' record', Agrees terms opened
        (applyAcknowledgement options target current record world).2 current' record' :=
  ⟨_, _, ⟨rfl, mapGet_mapSet_self .., h.status,
    ⟨h.matching.path, h.matching.intervalId, h.matching.phaseId, h.matching.generation,
      h.matching.sourceBaseCommit, h.matching.baselineSha256⟩,
    ⟨h.pins.kind, h.pins.workId, h.pins.phaseId, h.pins.requiredChecksSha256,
      h.pins.policySha256⟩, h.intervalId, h.sourceBaseCommit⟩⟩

/-- An interval and a record that are found agree with those that are known. -/
theorem Agrees.unique (h : Agrees terms opened world current record) {phaseId : Text}
    {current' : Interval} {record' : Baseline} (hopen : openFor world phaseId = some current')
    (hfile : baselineFile world current'.path = some record') :
    current' = current ∧ record' = record := by
  obtain ⟨hcurrent, -, -⟩ := openFor_eq_some_iff.mp hopen
  obtain rfl := Option.some.inj (hcurrent.symm.trans h.held)
  exact ⟨rfl, Option.some.inj (hfile.symm.trans h.file)⟩

/-- **Verification passes** exactly on a sealed record. -/
theorem Agrees.verify_iff (h : Agrees terms opened world current record) {workflow : Facts}
    {phase : Phase} (hphase : activePhase workflow current.phaseId = .ok phase)
    (hterms : termsOf workflow phase = terms) (allowReconciled : Bool) :
    verifyWorkIntervalBaseline workflow current.phaseId allowReconciled world
        = .ok ⟨current.path, record.baselineSha256, record.core.sourceBaseCommit⟩
      ↔ SealedRecord record := by
  have hid := activePhase_id hphase
  have hfailures : baselineFailures workflow phase current record = [] ↔ SealedRecord record := by
    subst hterms
    obtain ⟨hkind, hwork, hphaseId, hchecks, hpolicy⟩ := h.pins
    obtain ⟨hpath, hinterval, -, hgeneration, hcommit, hsha⟩ := h.matching
    simp only [termsOf] at hwork hphaseId hchecks hpolicy
    simp [baselineFailures, expectations, SealedRecord, hkind, hwork, hphaseId, hchecks, hpolicy,
      hpath, hinterval, hgeneration, hcommit, hsha]
  simp only [verifyWorkIntervalBaseline, hphase, bind_eq_ok_iff, Except.ok.injEq, exists_eq_left',
    h.held, h.file, hid, h.status, failIf_eq_ok_iff]
  simpa using hfailures

/-! ## Runs -/

/-- A run on one interval, from the call that opens it.  The bit says whether
the last write sealed the record. -/
inductive Run : Terms → Interval → Bool → World → Prop
  | opened {workflow : Facts} {options : Opening} {world world' : World} {phase : Phase}
      {current : Interval} :
      opens workflow options world = true →
      activePhase workflow options.phaseId = .ok phase →
      ensureWorkIntervalBaseline workflow options world = .ok (some current, world') →
      Run (termsOf workflow phase) current true world'
  | ensure {terms : Terms} {opened : Interval} {fresh : Bool} {workflow : Facts} {options : Opening}
      {world world' : World} {result : Option Interval} :
      Run terms opened fresh world →
      opens workflow options world = false →
      ensureWorkIntervalBaseline workflow options world = .ok (result, world') →
      Run terms opened fresh world'
  | amend {terms : Terms} {opened : Interval} {fresh : Bool} {workflow : Facts}
      {options : AmendOptions} {world world' : World} {result : Option Interval} :
      Run terms opened fresh world →
      amendWorkIntervalBaseline workflow options world = .ok (result, world') →
      Run terms opened (fresh || amends options world) world'
  | acknowledge {terms : Terms} {opened : Interval} {fresh : Bool} {workflow : Facts}
      {options : AcknowledgeOptions} {world world' : World} {result : Option Acknowledged} :
      Run terms opened fresh world →
      acknowledgeAmendment workflow options world = .ok (result, world') →
      Run terms opened (fresh && !records options world) world'

theorem Run.agrees {fresh : Bool} (h : Run terms opened fresh world) :
    ∃ current record, Agrees terms opened world current record ∧
      (fresh = true → SealedRecord record) := by
  induction h with
  | opened hopens hphase hcall =>
      rcases ensureWorkIntervalBaseline_cases hcall with
        ⟨hno, -⟩ | ⟨-, phase, generation, current, hactive, hopen, hresult⟩
      · rw [hopens] at hno; cases hno
      · obtain rfl := Except.ok.inj (hactive.symm.trans hphase)
        obtain rfl := Option.some.inj hresult
        obtain ⟨record, hagrees, hseal⟩ := agrees_openInterval hopen
        exact ⟨_, record, hagrees, fun _ => hseal⟩
  | ensure _ hopens hcall ih =>
      rcases ensureWorkIntervalBaseline_cases hcall with ⟨-, rfl⟩ | ⟨hyes, -⟩
      · exact ih
      · rw [hopens] at hyes; cases hyes
  | amend _ hcall ih =>
      obtain ⟨current, record, hagrees, hseal⟩ := ih
      rcases amendWorkIntervalBaseline_cases hcall with
        ⟨hno, rfl⟩ | ⟨-, current', toGeneration, record', hopen, -, hfile, rfl⟩
      · rw [hno, Bool.or_false]
        exact ⟨current, record, hagrees, hseal⟩
      · obtain ⟨rfl, rfl⟩ := hagrees.unique hopen hfile
        obtain ⟨current', record', hagrees', hseal'⟩ := hagrees.amend _ toGeneration
        exact ⟨current', record', hagrees', fun _ => hseal'⟩
  | acknowledge _ hcall ih =>
      obtain ⟨current, record, hagrees, hseal⟩ := ih
      rcases acknowledgeAmendment_cases hcall with
        ⟨hno, rfl⟩ | ⟨hyes, current', target, record', hopen, hfile, rfl⟩
      · rw [hno, Bool.not_false, Bool.and_true]
        exact ⟨current, record, hagrees, hseal⟩
      · obtain ⟨rfl, rfl⟩ := hagrees.unique hopen hfile
        obtain ⟨current', record', hagrees'⟩ := hagrees.acknowledge _ target
        exact ⟨current', record', hagrees', by simp [hyes]⟩

/-- **Integrity of baselines.**  After every run on one interval, the record
and the interval agree, and the interval has the identity and the commit it
was opened with.  Unless an acknowledgement was recorded since the last
sealing write, the stored hash is the one of the core, and verification
reports no failure while the policy, the required checks and the work item
are the ones of the opening. -/
theorem run_integrity {fresh : Bool} (h : Run terms opened fresh world) :
    ∃ current record, world.current = some current ∧
      baselineFile world current.path = some record ∧ Matches current record ∧
      current.intervalId = opened.intervalId ∧
      current.sourceBaseCommit = opened.sourceBaseCommit ∧
      (fresh = true → SealedRecord record ∧
        ∀ (workflow : Facts) (phase : Phase) (allowReconciled : Bool),
          activePhase workflow current.phaseId = .ok phase → termsOf workflow phase = terms →
          verifyWorkIntervalBaseline workflow current.phaseId allowReconciled world
            = .ok ⟨current.path, record.baselineSha256, record.core.sourceBaseCommit⟩) := by
  obtain ⟨current, record, hagrees, hseal⟩ := h.agrees
  exact ⟨current, record, hagrees.held, hagrees.file, hagrees.matching, hagrees.intervalId,
    hagrees.sourceBaseCommit, fun h => ⟨hseal h, fun workflow phase allowReconciled hphase hterms =>
      (hagrees.verify_iff hphase hterms allowReconciled).mpr (hseal h)⟩⟩

/-! ## A run of three calls -/

def samplePhase : Phase :=
  ⟨js "build", .inProgress, none, none, false, false, some (js "source-and-artifact"), none, [],
    none⟩

def sampleFacts : Facts :=
  ⟨[], [], [], false, ⟨js "W-1", js "fix"⟩, js "build", [samplePhase], [], none, none, [], .null,
    .null, .null, .null⟩

def sampleOpening : Opening := ⟨js "build", js "w", js "c0ffee", none, js "main", js "t0"⟩

/-- After the opening. -/
def sampleOpened : Interval × World :=
  openInterval sampleFacts samplePhase sampleOpening 1 ⟨none, [], []⟩

def sampleAmend : AmendOptions :=
  ⟨js "build", some (Number.ofNat 2), [js "REQ-1"], none, none, js "t1"⟩

def sampleRecord (world : World) : Baseline :=
  (baselineFile world sampleOpened.1.path).getD
    ⟨openingCore sampleFacts samplePhase sampleOpening 1 1, [], [], [], []⟩

/-- After the amendment. -/
def sampleAmended : Interval × World :=
  applyAmendment sampleAmend 2 sampleOpened.1 (sampleRecord sampleOpened.2) sampleOpened.2

def sampleAcknowledge : AcknowledgeOptions := ⟨js "build", none, js "ada", js "t2"⟩

/-- After the acknowledgement. -/
def sampleAcknowledged : Interval × World :=
  applyAcknowledgement sampleAcknowledge 2 sampleAmended.1 (sampleRecord sampleAmended.2)
    sampleAmended.2

theorem sample_opened :
    Run (termsOf sampleFacts samplePhase) sampleOpened.1 true sampleOpened.2 :=
  @Run.opened sampleFacts sampleOpening ⟨none, [], []⟩ _ samplePhase _ rfl rfl rfl

theorem sample_amended :
    Run (termsOf sampleFacts samplePhase) sampleOpened.1 true sampleAmended.2 :=
  @Run.amend _ _ _ sampleFacts sampleAmend _ _ (some sampleAmended.1) sample_opened rfl

theorem sample_acknowledged :
    Run (termsOf sampleFacts samplePhase) sampleOpened.1 false sampleAcknowledged.2 :=
  @Run.acknowledge _ _ _ sampleFacts sampleAcknowledge _ _ (some ⟨sampleAcknowledged.1, true⟩)
    sample_amended rfl

theorem run_integrity_sample :
    ∃ current record, sampleAmended.2.current = some current ∧
      baselineFile sampleAmended.2 current.path = some record ∧ Matches current record ∧
      current.intervalId = sampleOpened.1.intervalId ∧
      current.sourceBaseCommit = sampleOpened.1.sourceBaseCommit ∧
      (true = true → SealedRecord record ∧
        ∀ (workflow : Facts) (phase : Phase) (allowReconciled : Bool),
          activePhase workflow current.phaseId = .ok phase →
          termsOf workflow phase = termsOf sampleFacts samplePhase →
          verifyWorkIntervalBaseline workflow current.phaseId allowReconciled sampleAmended.2
            = .ok ⟨current.path, record.baselineSha256, record.core.sourceBaseCommit⟩) :=
  run_integrity sample_amended

/-- After the acknowledgement the stored hash is not the one of the core. -/
theorem run_unsealed :
    ¬ ∀ (terms : Terms) (opened current : Interval) (fresh : Bool) (world : World)
        (record : Baseline), Run terms opened fresh world → world.current = some current →
        baselineFile world current.path = some record → SealedRecord record := by
  intro h
  have hsealed := h _ _ sampleAcknowledged.1 _ _ (sampleRecord sampleAcknowledged.2)
    sample_acknowledged rfl rfl
  have hhash : (sampleRecord sampleAcknowledged.2).baselineSha256
      ≠ hash (baselineCore (sampleRecord sampleAcknowledged.2)).json := by decide +kernel
  exact hhash hsealed

end WorkIntervals

end SingularityFlow
