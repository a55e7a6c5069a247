/-
# Which occurrences stand for a test

`joinDeclaration` finds the occurrences of a declared test by what the report
names: the class or the describe path, the title, and the file where there is one.
A report may leave the file out, and a file is compared by the end of its path.
So a test of another file, with the same describe path and title, can be the one
that is found, when the declared test itself has not run.  `soundJoin_iff` says
when: as many candidates as the declaration has instances, all passed, and one of
them of another declaration.
-/
import SingularityFlow.Verification.Witnesses

namespace SingularityFlow

open Ecma

namespace Verification

/-! ## Declarations and what they produce -/

/-- A test as it is declared in a source. -/
structure Declaration where
  testSource : Text
  line : Option Nat
  profile : Profile
  identity : TestIdentity
  parameters : Option Nat
  gaps : List Text
deriving DecidableEq

/-- What is joined of a declaration, without the clause that it is for. -/
def Declaration.witness (declaration : Declaration) : TestWitness where
  clauseId := []
  testSource := declaration.testSource
  line := declaration.line
  profile := declaration.profile
  nodeTap := false
  commandId := none
  logicalTestId := none
  identity := some declaration.identity
  parameters := declaration.parameters
  gaps := declaration.gaps

/-- An occurrence, and the declaration that produced it. -/
structure Produced where
  producer : Declaration
  occurrence : Occurrence

section Joined

variable (instances : TestWitness → Text → Bool)

/-- `joinDeclaration`, of a declaration with the gaps that its reader found. -/
def joinRead (declaration : Declaration) (occurrences : List Occurrence) (run : Run) : Joined :=
  let reasons := declaration.gaps ++
    if declaration.parameters.isSome && declaration.profile = .junitGradle then
      [js "PARAMETERIZED_RUNNER_NAMING_UNSUPPORTED"]
    else []
  if reasons ≠ [] then ⟨.inconclusive, reasons, []⟩
  else joinDeclaration instances declaration.witness declaration.identity occurrences run

/-- The name is the title of the declaration, or one of its instances. -/
def named (declaration : Declaration) (name : Text) : Bool :=
  match declaration.parameters, declaration.identity with
  | some _, _ => instances declaration.witness name
  | none, .java _ methodName => name ∈ [methodName, methodName ++ js "()"]
  | none, .script _ title => name = title

/-- The class or the describe path, and the title, are those of the declaration. -/
def sameTitle (declaration : Declaration) (occurrence : Occurrence) : Bool :=
  (match declaration.identity with
  | .java className _ => declaration.profile.isJava && occurrence.className = some className
  | .script suitePath _ => occurrence.suitePath = suitePath) &&
    named instances declaration occurrence.name

/-- The file and the line that are reported are those of the declaration, as far
as they are compared. -/
def samePlace (declaration : Declaration) (occurrence : Occurrence) : Bool :=
  match declaration.identity with
  | .java _ _ => true
  | .script _ _ =>
      if declaration.profile = .nodeTest then
        occurrence.file = some declaration.testSource && occurrence.line = declaration.line
      else occurrence.file.all fun file => fileMatches file declaration.testSource

/-- The occurrence is named as the runner names one of its producer; the file may
be absent. -/
def Reported (entry : Produced) : Prop :=
  sameTitle instances entry.producer entry.occurrence = true
    ∧ samePlace entry.producer entry.occurrence = true

/-! ## The candidates -/

/-- Whether files are compared: there is a named one, of the right title. -/
def comparesFiles (declaration : Declaration) (occurrences : List Occurrence) : Bool :=
  match declaration.identity with
  | .java _ _ => false
  | .script _ _ => declaration.profile = .nodeTest
      || occurrences.any fun o => sameTitle instances declaration o && o.file.isSome

def isCandidate (declaration : Declaration) (comparing : Bool) (occurrence : Occurrence) : Bool :=
  sameTitle instances declaration occurrence && (!comparing || samePlace declaration occurrence)

def candidates (declaration : Declaration) (occurrences : List Occurrence) : List Occurrence :=
  candidateOccurrences instances declaration.witness declaration.identity occurrences

/-- Of the occurrences of the right title, those that are left when files are
compared. -/
theorem filter_titled (declaration : Declaration) {suitePath : List Text} {name : Text}
    (hidentity : declaration.identity = .script suitePath name) (occurrences : List Occurrence) :
    (let titled := occurrences.filter (sameTitle instances declaration)
      if declaration.profile = .nodeTest then
        titled.filter fun o => o.file = some declaration.testSource && o.line = declaration.line
      else if titled.any fun o => o.file.isSome then
        titled.filter fun o => o.file.all fun file => fileMatches file declaration.testSource
      else titled)
    = occurrences.filter (isCandidate instances declaration
        (comparesFiles instances declaration occurrences)) := by
  dsimp only
  rw [List.any_filter]
  by_cases hnode : declaration.profile = .nodeTest
  · simp only [if_pos hnode, List.filter_filter]
    refine List.filter_congr fun o _ => ?_
    simp [isCandidate, comparesFiles, samePlace, hidentity, hnode, Bool.and_comm]
  · rw [if_neg hnode]
    split
    · next hany =>
        have hcomparing : comparesFiles instances declaration occurrences = true := by
          simp [comparesFiles, hidentity, hany]
        rw [List.filter_filter, hcomparing]
        refine List.filter_congr fun o _ => ?_
        simp [isCandidate, samePlace, hidentity, hnode, Bool.and_comm]
    · next hany =>
        refine List.filter_congr fun o _ => ?_
        simp [isCandidate, comparesFiles, hidentity, hnode, hany]

theorem candidates_eq (declaration : Declaration) (occurrences : List Occurrence) :
    candidates instances declaration occurrences
      = occurrences.filter (isCandidate instances declaration
          (comparesFiles instances declaration occurrences)) := by
  obtain ⟨testSource, line, profile, identity, parameters, gaps⟩ := declaration
  cases identity with
  | java className methodName =>
      cases parameters with
      | none =>
          rw [candidates, candidateOccurrences]
          simp only [Declaration.witness, List.filter_filter]
          refine List.filter_congr fun o _ => ?_
          simp [isCandidate, sameTitle, named, comparesFiles, Bool.and_comm]
      | some count =>
          rw [candidates, candidateOccurrences]
          simp only [Declaration.witness, List.filter_filter]
          refine List.filter_congr fun o _ => ?_
          simp [isCandidate, sameTitle, named, comparesFiles, Declaration.witness, Bool.and_comm]
  | script suitePath name =>
      refine Eq.trans ?_ (filter_titled instances _ rfl occurrences)
      cases parameters with
      | none =>
          have htitled : (occurrences.filter fun o => decide (o.suitePath = suitePath)).filter
              (fun o => decide (o.name = name)) = occurrences.filter (sameTitle instances
                ⟨testSource, line, profile, .script suitePath name, none, gaps⟩) := by
            rw [List.filter_filter]
            refine List.filter_congr fun o _ => ?_
            simp [sameTitle, named, Bool.and_comm]
          rw [candidates, candidateOccurrences, ← htitled]
          rfl
      | some count =>
          have htitled : (occurrences.filter fun o => decide (o.suitePath = suitePath)).filter
              (fun o => instances (Declaration.witness
                ⟨testSource, line, profile, .script suitePath name, some count, gaps⟩) o.name)
              = occurrences.filter (sameTitle instances
                ⟨testSource, line, profile, .script suitePath name, some count, gaps⟩) := by
            rw [List.filter_filter]
            refine List.filter_congr fun o _ => ?_
            simp [sameTitle, named, Bool.and_comm]
          rw [candidates, candidateOccurrences, ← htitled]
          rfl

/-- What a declaration produced is a candidate of it. -/
theorem isCandidate_of_reported {entry : Produced} (h : Reported instances entry) (comparing : Bool) :
    isCandidate instances entry.producer comparing entry.occurrence = true := by
  rw [isCandidate, h.1, h.2, Bool.or_true, Bool.and_true]

/-! ## When a declaration passes -/

def Passes (declaration : Declaration) (occurrences : List Occurrence) (run : Run) : Prop :=
  (joinRead instances declaration occurrences run).outcome = .passed

instance (declaration : Declaration) (occurrences : List Occurrence) (run : Run) :
    Decidable (Passes instances declaration occurrences run) :=
  inferInstanceAs (Decidable (_ = _))

/-- The name of a test can be pinned down in the report. -/
def Pinned (declaration : Declaration) : Prop :=
  declaration.gaps = [] ∧ ¬ (declaration.parameters.isSome = true ∧ declaration.profile = .junitGradle)

/-- The occurrence passed, and at once. -/
def Passed (occurrence : Occurrence) : Prop := occurrence.outcome = .passed ∧ occurrence.flaky = false

theorem outcomeOf_passed (occurrences : List Occurrence) :
    outcomeOf occurrences = .passed ↔ ∀ o ∈ occurrences, Passed o := by
  rw [outcomeOf]
  constructor
  · intro h o ho
    split at h
    · cases h
    · next hfailed =>
        split at h
        · cases h
        · next hskipped =>
            split at h
            · cases h
            · next hflaky =>
                simp only [List.any_eq_true, decide_eq_true_eq, not_exists, not_and] at hfailed hskipped hflaky
                refine ⟨?_, Bool.eq_false_iff.mpr (hflaky o ho)⟩
                cases houtcome : o.outcome with
                | passed => rfl
                | failed => exact absurd houtcome (hfailed o ho)
                | skipped => exact absurd houtcome (hskipped o ho)
  · intro h
    have hnone : ∀ p : Occurrence → Bool, (∀ o, Passed o → p o = false) → ¬ occurrences.any p = true := by
      intro p hp hany
      obtain ⟨o, ho, hpo⟩ := List.any_eq_true.mp hany
      rw [hp o (h o ho)] at hpo
      cases hpo
    rw [if_neg (hnone _ fun o ho => by rw [ho.1]; rfl),
      if_neg (hnone _ fun o ho => by rw [ho.1]; rfl), if_neg (hnone _ fun o ho => ho.2)]

theorem judged_passed (matched : List Occurrence) (run : Run) : (judged matched run).outcome = .passed
    ↔ run.completed = true ∧ run.succeeded = true ∧ ∀ o ∈ matched, Passed o := by
  rw [judged, ← outcomeOf_passed]
  cases outcomeOf matched <;> cases run.completed <;> cases run.succeeded <;> simp

theorem joinDeclaration_passed (witness : TestWitness) (identity : TestIdentity)
    (occurrences : List Occurrence) (run : Run) :
    (joinDeclaration instances witness identity occurrences run).outcome = .passed
      ↔ ¬ (witness.parameters.isSome && witness.profile = .junitGradle) = true
        ∧ candidateOccurrences instances witness identity occurrences ≠ []
        ∧ (candidateOccurrences instances witness identity occurrences).length
            = witness.parameters.getD 1
        ∧ (judged (candidateOccurrences instances witness identity occurrences) run).outcome
            = .passed := by
  rw [joinDeclaration]
  split
  · next hrunner =>
      exact ⟨(fun h => by cases h), fun h => absurd hrunner h.1⟩
  · next hrunner =>
      dsimp only
      generalize candidateOccurrences instances witness identity occurrences = matched
      split
      · next hempty => exact ⟨(fun h => by cases h), fun h => absurd hempty h.2.1⟩
      · next hne =>
          cases hparameters : witness.parameters with
          | some expected =>
              dsimp only
              split
              · next hlt => exact ⟨(fun h => by cases h), fun h => absurd h.2.2.1 hlt.ne⟩
              · split
                · next hgt => exact ⟨(fun h => by cases h), fun h => absurd h.2.2.1 hgt.ne'⟩
                · next hle hge =>
                    rw [hparameters] at hrunner
                    exact ⟨fun h => ⟨hrunner, hne, Nat.le_antisymm (Nat.not_lt.mp hge)
                      (Nat.not_lt.mp hle), h⟩, fun h => h.2.2.2⟩
          | none =>
              dsimp only
              have hpos := List.length_pos_iff.mpr hne
              split
              · next hgt => exact ⟨(fun h => by cases h), fun h => absurd h.2.2.1 hgt.ne'⟩
              · next hle =>
                  rw [hparameters] at hrunner
                  refine ⟨fun h => ⟨hrunner, hne, ?_, h⟩, fun h => h.2.2.2⟩
                  exact Nat.le_antisymm (Nat.not_lt.mp hle) hpos

/-- As many candidates as the declaration has instances, and all of them passed. -/
theorem passes_iff (declaration : Declaration) (occurrences : List Occurrence) (run : Run) :
    Passes instances declaration occurrences run ↔ Pinned declaration ∧ run.completed = true
      ∧ run.succeeded = true
      ∧ candidates instances declaration occurrences ≠ []
      ∧ (candidates instances declaration occurrences).length = declaration.parameters.getD 1
      ∧ ∀ o ∈ candidates instances declaration occurrences, Passed o := by
  simp only [Passes, joinRead]
  by_cases hgaps : declaration.gaps = []
  · by_cases hrunner : declaration.parameters.isSome = true ∧ declaration.profile = .junitGradle
    · have hreason : (declaration.parameters.isSome && decide (declaration.profile = .junitGradle))
          = true := by simp [hrunner]
      rw [if_pos hreason, if_pos (by simp)]
      exact ⟨(fun h => by cases h), fun h => absurd hrunner h.1.2⟩
    · have hreason : ¬ (declaration.parameters.isSome
          && decide (declaration.profile = .junitGradle)) = true := by simpa using hrunner
      rw [if_neg hreason, hgaps, List.append_nil, if_neg (by simp), joinDeclaration_passed,
        judged_passed]
      exact ⟨fun ⟨_, hne, hlength, hcompleted, hsucceeded, hpassed⟩ =>
          ⟨⟨hgaps, hrunner⟩, hcompleted, hsucceeded, hne, hlength, hpassed⟩,
        fun ⟨_, hcompleted, hsucceeded, hne, hlength, hpassed⟩ =>
          ⟨hreason, hne, hlength, hcompleted, hsucceeded, hpassed⟩⟩
  · rw [if_pos (by simp [hgaps])]
    exact ⟨(fun h => by cases h), fun h => absurd h.1.1 hgaps⟩

/-! ## Soundness -/

def occurrencesOf (report : List Produced) : List Occurrence := report.map Produced.occurrence

/-- The occurrences that the declaration produced. -/
def own (declaration : Declaration) (report : List Produced) : List Occurrence :=
  occurrencesOf (report.filter (·.producer = declaration))

/-- An unrelated test does not stand in for the declared one. -/
structure SoundJoin (declaration : Declaration) (report : List Produced) (run : Run) : Prop where
  /-- What passes by the report passes by its own occurrences. -/
  own_passes : Passes instances declaration (occurrencesOf report) run →
    Passes instances declaration (own declaration report) run
  /-- The run has succeeded, and all of its own occurrences have passed. -/
  all_passed : Passes instances declaration (occurrencesOf report) run →
    run.completed = true ∧ run.succeeded = true ∧ ∀ o ∈ own declaration report, Passed o

/-- Another declaration's occurrence is among as many candidates as the declaration
has instances, and all of them have passed in a run that has succeeded. -/
def StandsIn (declaration : Declaration) (report : List Produced) (run : Run) : Prop :=
  Pinned declaration ∧ run.completed = true ∧ run.succeeded = true
    ∧ (candidates instances declaration (occurrencesOf report)).length
        = declaration.parameters.getD 1
    ∧ (∀ o ∈ candidates instances declaration (occurrencesOf report), Passed o)
    ∧ ∃ entry ∈ report, entry.producer ≠ declaration
        ∧ entry.occurrence ∈ candidates instances declaration (occurrencesOf report)

/-- The candidates in a report, of those that the declaration produced and of the
others. -/
theorem candidates_report (declaration : Declaration) (report : List Produced) :
    candidates instances declaration (occurrencesOf report)
      = occurrencesOf (report.filter fun entry => isCandidate instances declaration
          (comparesFiles instances declaration (occurrencesOf report)) entry.occurrence) := by
  rw [candidates_eq]
  exact List.filter_map

/-- Its own occurrences are its candidates, among them and in the whole report. -/
theorem own_candidates (declaration : Declaration) {report : List Produced}
    (h : ∀ entry ∈ report, Reported instances entry) (comparing : Bool) :
    report.filter (·.producer = declaration)
      = (report.filter fun entry => isCandidate instances declaration comparing entry.occurrence).filter
          (·.producer = declaration) := by
  rw [List.filter_filter]
  refine List.filter_congr fun entry hentry => ?_
  by_cases hproducer : entry.producer = declaration
  · subst hproducer
    simp [isCandidate_of_reported instances (h entry hentry) comparing]
  · simp [hproducer]

theorem candidates_own {declaration : Declaration} {report : List Produced}
    (h : ∀ entry ∈ report, Reported instances entry) :
    candidates instances declaration (own declaration report) = own declaration report := by
  rw [candidates_eq, List.filter_eq_self]
  intro o ho
  obtain ⟨entry, hentry, rfl⟩ := List.mem_map.mp ho
  obtain ⟨hmem, hproducer⟩ := List.mem_filter.mp hentry
  obtain rfl := of_decide_eq_true hproducer
  exact isCandidate_of_reported instances (h entry hmem) _

/-- **An unrelated test never stands in for the declared one, except** where there
are as many candidates as the declaration has instances, all have passed, and one
of them is of another declaration. -/
theorem soundJoin_iff (declaration : Declaration) (report : List Produced) (run : Run)
    (h : ∀ entry ∈ report, Reported instances entry) :
    SoundJoin instances declaration report run ↔ ¬ StandsIn instances declaration report run := by
  have hown := own_candidates instances declaration h
    (comparesFiles instances declaration (occurrencesOf report))
  have hreport := candidates_report instances declaration report
  constructor
  · rintro hsound ⟨hpinned, hcompleted, hsucceeded, hlength, hpassed, other, hother, hne, hcandidate⟩
    have hpasses : Passes instances declaration (occurrencesOf report) run :=
      (passes_iff instances declaration (occurrencesOf report) run).mpr
        ⟨hpinned, hcompleted, hsucceeded, List.ne_nil_of_mem hcandidate, hlength, hpassed⟩
    obtain ⟨-, -, -, -, hlength', -⟩ := (passes_iff ..).mp (hsound.own_passes hpasses)
    rw [candidates_own instances h, ← hlength, hreport, own, hown] at hlength'
    have hall := List.length_filter_eq_length_iff.mp
      ((List.length_map _).symm.trans (hlength'.trans (List.length_map _)))
    refine hne (of_decide_eq_true (hall other (List.mem_filter.mpr ⟨hother, ?_⟩)))
    rw [candidates_eq] at hcandidate
    exact (List.mem_filter.mp hcandidate).2
  · intro hnot
    refine ⟨fun hpasses => ?_, fun hpasses => ?_⟩
    · obtain ⟨hpinned, hcompleted, hsucceeded, hnonempty, hlength, hpassed⟩ :=
        (passes_iff instances declaration (occurrencesOf report) run).mp hpasses
      -- all the candidates are its own
      have hsame : own declaration report
          = candidates instances declaration (occurrencesOf report) := by
        rw [hreport, own, hown]
        refine congrArg occurrencesOf (List.filter_eq_self.mpr fun entry hentry => ?_)
        by_contra hproducer
        obtain ⟨hmem, hstands⟩ := List.mem_filter.mp hentry
        refine hnot ⟨hpinned, hcompleted, hsucceeded, hlength, hpassed, entry, hmem,
          fun heq => hproducer (decide_eq_true heq), ?_⟩
        rw [hreport]
        exact List.mem_map_of_mem (List.mem_filter.mpr ⟨hmem, hstands⟩)
      rw [passes_iff, candidates_own instances h, hsame]
      exact ⟨hpinned, hcompleted, hsucceeded, hnonempty, hlength, hpassed⟩
    · obtain ⟨-, hcompleted, hsucceeded, -, -, hpassed⟩ :=
        (passes_iff instances declaration (occurrencesOf report) run).mp hpasses
      refine ⟨hcompleted, hsucceeded, fun o ho => hpassed o ?_⟩
      rw [own, hown] at ho
      rw [hreport]
      exact List.mem_map.mpr ((List.mem_map.mp ho).imp fun entry hentry =>
        ⟨(List.mem_filter.mp hentry.1).1, hentry.2⟩)

end Joined

/-! ## A test of another file -/

/-- A test of this source, of one title. -/
def paysIn (testSource : Text) : Declaration :=
  ⟨testSource, some 3, .jest, .script [js "billing"] (js "pays"), none, []⟩

/-- It passed, and the report names no file. -/
def paysPassed (testSource : Text) : Produced :=
  ⟨paysIn testSource, ⟨none, [js "billing"], js "pays", none, none, .passed, false⟩⟩

theorem soundJoin_iff_own :
    SoundJoin (fun _ _ => false) (paysIn (js "test/pay.test.js")) [paysPassed (js "test/pay.test.js")]
        ⟨true, true⟩
      ↔ ¬ StandsIn (fun _ _ => false) (paysIn (js "test/pay.test.js"))
          [paysPassed (js "test/pay.test.js")] ⟨true, true⟩ :=
  soundJoin_iff (fun _ _ => false) (paysIn (js "test/pay.test.js"))
    [paysPassed (js "test/pay.test.js")] ⟨true, true⟩
    (List.forall_mem_singleton.mpr ⟨by decide, by decide⟩)

/-- The test of the other file has the same describe path and title.  It alone has
run, and the declared test passes. -/
theorem otherFile_not_sound :
    (∀ entry ∈ [paysPassed (js "test/other.test.js")], Reported (fun _ _ => false) entry)
      ∧ ¬ SoundJoin (fun _ _ => false) (paysIn (js "test/pay.test.js"))
          [paysPassed (js "test/other.test.js")] ⟨true, true⟩ := by
  refine ⟨List.forall_mem_singleton.mpr ⟨by decide, by decide⟩, fun h => ?_⟩
  have hown := h.own_passes (by decide)
  revert hown
  decide

end Verification

end SingularityFlow
