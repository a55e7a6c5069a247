/-
# Saving a plan after an edit of one Story

`updateEpicStory` loads the plan, assigns to one Story, and saves it through
`persistEpicStoryPlan`: the edited plan is written, read, given its
`initiativeId`, and written to the file.  The file is the value that its YAML
stands for.

The other Stories come through this twice.  What they lose is what
`Breakdown.written` leaves out: the reader takes a key that is an empty text,
zero or false for a key, and the writer for none.  A plan is saved as it is
just when it has no such key.
-/
import SingularityFlow.Initiative.BreakdownDocument

namespace SingularityFlow

open Ecma Ecma.Value

namespace Breakdowns

/-! ## Loading, editing and saving -/

def loadInitiativeBreakdown (knows : Text → Bool) (initiativeId : Text) (file : Value) :
    Except Failure Breakdown := do
  let breakdown ← validateInitiativeBreakdown knows file
  failIf (breakdown.initiativeId.any fun v => v.value.truthy && v.value ≠ .str initiativeId)
    (refuse (js "Breakdown initiativeId " ++ quoted ((text? breakdown.initiativeId).getD [])
      ++ js " does not match " ++ quoted initiativeId ++ js "."))
  .ok { breakdown with initiativeId := some (.ofText initiativeId) }

/-- What `persistEpicStoryPlan` returns of the plan, and what it writes to the file. -/
def persistEpicStoryPlan (knows : Text → Bool) (initiativeId : Text)
    (document : Except Failure Value) : Except Failure (Breakdown × Value) := do
  let document ← document
  let read ← validateInitiativeBreakdown knows document
  let normalized : Breakdown := { read with initiativeId := some (.ofText initiativeId) }
  let file ← initiativeBreakdownDocument normalized
  .ok (normalized, file)

def editableFields : List Text :=
  [js "title", js "description", js "repository", js "suggestedWorkType", js "blocking",
    js "requirements", js "acceptanceCriteria", js "dependsOn", js "specification", js "metadata",
    js "tasks"]

/-- `Object.assign(story, changes)`; a change may be undefined. -/
def Draft.assign (draft : Draft) (changes : List (Text × Option Value)) : Draft :=
  let assigned (name : String) (value : Option Value) : Option Value :=
    (lookup (js name) changes).getD value
  { story := draft.story
    title := assigned "title" draft.title
    description := assigned "description" draft.description
    specification := assigned "specification" draft.specification
    requirements := assigned "requirements" draft.requirements
    acceptanceCriteria := assigned "acceptanceCriteria" draft.acceptanceCriteria
    repository := assigned "repository" draft.repository
    blocking := assigned "blocking" draft.blocking
    suggestedWorkType := assigned "suggestedWorkType" draft.suggestedWorkType
    metadata := assigned "metadata" draft.metadata
    tasks := assigned "tasks" draft.tasks
    dependsOn := assigned "dependsOn" draft.dependsOn }

/-- The Stories of a plan, one of them edited. -/
def edited (planId : Text) (changes : List (Text × Option Value)) (story : Story) : Draft :=
  if story.id.text = planId then story.draft.assign changes else story.draft

def updateEpicStory (knows : Text → Bool) (initiativeId : Text) (file : Value) (planId : Text)
    (changes : List (Text × Option Value)) : Except Failure (Breakdown × Value) := do
  let breakdown ← loadInitiativeBreakdown knows initiativeId file
  failIf (planId ∉ breakdown.stories.map fun story => story.id.text)
    (refuse (js "Epic " ++ quoted initiativeId ++ js " has no planned Story " ++ quoted planId
      ++ js "."))
  let unexpected := (changes.map Prod.fst).filter (· ∉ editableFields)
  failIf (unexpected ≠ [])
    (refuse (js "Unsupported Story fields: " ++ joinWith (js ", ") unexpected ++ js "."))
  persistEpicStoryPlan knows initiativeId (breakdownDocument (edited planId changes) breakdown)

/-! ## What is kept -/

/-- A key that is written wherever it is given. -/
def Kept (key : Option Given) : Prop := ∀ v ∈ key, v.value.truthy = true

structure Task.Kept (task : Task) : Prop where
  jiraKey : Breakdowns.Kept task.jiraKey
  jiraIssueId : task.jiraIssueId ≠ some []

structure Story.Kept (story : Story) : Prop where
  jiraKey : Breakdowns.Kept story.jiraKey
  initialJiraKey : Breakdowns.Kept story.initialJiraKey
  jiraIssueId : story.jiraIssueId ≠ some []
  epicKey : Breakdowns.Kept story.epicKey
  idAuthority : Breakdowns.Kept story.idAuthority
  tasks : ∀ task ∈ story.tasks, task.Kept

structure Epic.Kept (epic : Epic) : Prop where
  jiraKey : Breakdowns.Kept epic.jiraKey
  jiraIssueId : epic.jiraIssueId ≠ some []
  stories : ∀ story ∈ epic.stories, story.Kept

/-- No key of the plan is given and false as a condition, and no issue number is empty. -/
def Breakdown.Kept (breakdown : Breakdown) : Prop := ∀ epic ∈ breakdown.epics, epic.Kept

theorem kept_eq_iff {key : Option Given} : kept key = key ↔ Kept key := by
  cases key with
  | none => exact iff_of_true rfl fun _ hw => by cases hw
  | some v =>
      rw [kept, Kept, Option.filter_some]
      split_ifs with h
      · exact iff_of_true rfl fun w hw => by rw [← Option.mem_some.mp hw]; exact h
      · exact iff_of_false (fun heq => by cases heq) fun hall => h (hall v rfl)

theorem keptIssue_eq_iff {id : Option Text} : keptIssue id = id ↔ id ≠ some [] := by
  cases id with
  | none => exact iff_of_true rfl nofun
  | some t => cases t <;> simp [keptIssue]

theorem kept_truthy {key : Option Given} {v : Given} (h : kept key = some v) :
    v.value.truthy = true := by
  obtain ⟨-, hv⟩ := Option.filter_eq_some_iff.mp h
  exact hv

/-- Another key that stands in changes nothing: it would be false as well. -/
theorem kept_or_eq_iff {key other : Option Given} (hnone : key = none → other = none) :
    (kept key).or (kept other) = key ↔ Kept key := by
  constructor
  · intro h
    refine kept_eq_iff.mp ?_
    cases hkey : kept key with
    | some v => rw [hkey] at h; exact h
    | none =>
        rw [hkey, Option.none_or] at h
        cases key with
        | none => rfl
        | some v =>
            rw [kept, Option.filter_some, if_pos (kept_truthy h)] at hkey
            cases hkey
  · intro h
    rw [kept_eq_iff.mpr h]
    cases key with
    | none => rw [hnone rfl]; rfl
    | some v => rfl

theorem map_eq_self_iff {α : Type} {f : α → α} {l : List α} : l.map f = l ↔ ∀ a ∈ l, f a = a := by
  conv_lhs => rhs; rw [← List.map_id l]
  exact List.map_inj_left

theorem Task.written_eq_iff {task : Task} : task.written = task ↔ task.Kept := by
  constructor
  · intro h
    exact ⟨kept_eq_iff.mp (congrArg Task.jiraKey h), keptIssue_eq_iff.mp (congrArg Task.jiraIssueId h)⟩
  · rintro ⟨hkey, hissue⟩
    rw [Task.written, kept_eq_iff.mpr hkey, keptIssue_eq_iff.mpr hissue]

theorem Story.written_eq_iff {knows : Text → Bool} {version : Version} {epicId : SafeId}
    {epicJiraKey : Option Given} {story : Story}
    (haccepted : StoryAccepted knows version epicId epicJiraKey story) :
    story.written epicJiraKey = story ↔ story.Kept := by
  constructor
  · intro h
    exact
      { jiraKey := kept_eq_iff.mp (congrArg Story.jiraKey h)
        initialJiraKey :=
          (kept_or_eq_iff haccepted.jiraKey_none).mp (congrArg Story.initialJiraKey h)
        jiraIssueId := keptIssue_eq_iff.mp (congrArg Story.jiraIssueId h)
        epicKey := (kept_or_eq_iff haccepted.epicKey_none).mp (congrArg Story.epicKey h)
        idAuthority := kept_eq_iff.mp (congrArg Story.idAuthority h)
        tasks := fun task htask => Task.written_eq_iff.mp
          (map_eq_self_iff.mp (congrArg Story.tasks h) task htask) }
  · rintro ⟨hkey, hinitial, hissue, hepic, hauthority, htasks⟩
    rw [Story.written, (kept_or_eq_iff haccepted.jiraKey_none).mpr hinitial,
      (kept_or_eq_iff haccepted.epicKey_none).mpr hepic, kept_eq_iff.mpr hkey,
      keptIssue_eq_iff.mpr hissue, kept_eq_iff.mpr hauthority,
      map_eq_self_iff.mpr fun task htask => Task.written_eq_iff.mpr (htasks task htask)]

theorem Epic.written_eq_iff {knows : Text → Bool} {version : Version} {epic : Epic}
    (haccepted : ∀ story ∈ epic.stories, StoryAccepted knows version epic.id epic.jiraKey story) :
    epic.written = epic ↔ epic.Kept := by
  constructor
  · intro h
    exact ⟨kept_eq_iff.mp (congrArg Epic.jiraKey h),
      keptIssue_eq_iff.mp (congrArg Epic.jiraIssueId h), fun story hstory =>
        (Story.written_eq_iff (haccepted story hstory)).mp
          (map_eq_self_iff.mp (congrArg Epic.stories h) story hstory)⟩
  · rintro ⟨hkey, hissue, hstories⟩
    rw [Epic.written, kept_eq_iff.mpr hkey, keptIssue_eq_iff.mpr hissue,
      map_eq_self_iff.mpr fun story hstory =>
        (Story.written_eq_iff (haccepted story hstory)).mpr (hstories story hstory)]

theorem Breakdown.written_eq_iff {knows : Text → Bool} {breakdown : Breakdown}
    (h : Accepted knows breakdown) : breakdown.written = breakdown ↔ breakdown.Kept := by
  constructor
  · intro hwritten epic hepic
    exact (Epic.written_eq_iff (h.stories epic hepic)).mp
      (map_eq_self_iff.mp (congrArg Breakdown.epics hwritten) epic hepic)
  · intro hkept
    rw [Breakdown.written, map_eq_self_iff.mpr fun epic hepic =>
      (Epic.written_eq_iff (h.stories epic hepic)).mpr (hkept epic hepic)]

/-! ## Edits -/

/-- A Story keeps its name, and all of it where it is not the one that is edited. -/
def StoryApart (planId : Text) (story story' : Story) : Prop :=
  story'.id = story.id ∧ (story.id.text ≠ planId → story' = story)

/-- An Epic keeps all but its Stories, and these apart from one. -/
def EpicApart (planId : Text) (epic epic' : Epic) : Prop :=
  epic' = { epic with stories := epic'.stories }
    ∧ List.Forall₂ (StoryApart planId) epic.stories epic'.stories

/-- Two plans that are the same but for one Story. -/
def Apart (planId : Text) (breakdown breakdown' : Breakdown) : Prop :=
  breakdown'.version = breakdown.version
    ∧ List.Forall₂ (EpicApart planId) breakdown.epics breakdown'.epics

theorem forall₂_of_sequence {ε α β γ : Type} {f : γ → Except ε β} {g : Nat → β → Except ε α}
    {l : List γ} {bs : List β} {as : List α} (hf : sequence (l.map f) = .ok bs)
    (hg : sequence (bs.mapIdx g) = .ok as) :
    List.Forall₂ (fun c a => ∃ b i, f c = .ok b ∧ g i b = .ok a) l as := by
  have hf' := sequence_eq_ok hf
  have hg' := sequence_eq_ok hg
  clear hf hg
  induction l generalizing bs as g with
  | nil =>
      obtain rfl := List.map_eq_nil_iff.mp hf'.symm
      obtain rfl := List.map_eq_nil_iff.mp hg'.symm
      exact .nil
  | cons c l ih =>
      cases bs with
      | nil => cases hf'
      | cons b bs =>
          obtain ⟨hfc, hf'⟩ := List.cons.inj hf'
          rw [List.mapIdx_cons] at hg'
          cases as with
          | nil => cases hg'
          | cons a as =>
              obtain ⟨hgb, hg'⟩ := List.cons.inj hg'
              exact .cons ⟨b, 0, hfc, hgb⟩ (by
                have := ih hf' (g := fun i => g (i + 1)) hg'
                exact this.imp fun _ _ ⟨b, i, h₁, h₂⟩ => ⟨b, i + 1, h₁, h₂⟩)

theorem edited_story (planId : Text) (changes : List (Text × Option Value)) (story : Story) :
    (edited planId changes story).story = story := by
  unfold edited
  split <;> rfl

/-- The name is written from the Story, whatever was assigned. -/
theorem document_id {version : Version} {draft : Draft} {document : Value}
    (h : draft.document version = .ok document) :
    (given? "planId" document).or (given? "id" document)
      = some (.ofText draft.story.id.text) := by
  obtain ⟨criteria, -, h⟩ := bind_eq_ok_iff.mp h
  obtain ⟨tasks, -, h⟩ := bind_eq_ok_iff.mp h
  obtain ⟨dependsOn, -, h⟩ := bind_eq_ok_iff.mp h
  obtain rfl := Except.ok.inj h
  have hnames := storyFields_names version draft criteria tasks dependsOn
  have hplanId : given? "planId" (.obj (compact (storyFields version draft criteria tasks dependsOn)))
      = given (if version = .two then some draft.story.id.value else none) :=
    given?_compact hnames rfl
  have hid : given? "id" (.obj (compact (storyFields version draft criteria tasks dependsOn)))
      = given (if version = .two then none else some draft.story.id.value) :=
    given?_compact hnames rfl
  rw [hplanId, hid]
  cases version <;> rfl

theorem storyApart_edited {knows : Text → Bool} {version : Version} {epicId : SafeId}
    {epicJiraKey : Option Given} {planId : Text} {changes : List (Text × Option Value)}
    {story story' : Story} {document : Value} {index : Nat}
    (haccepted : StoryAccepted knows version epicId epicJiraKey story)
    (hdocument : (edited planId changes story).document version = .ok document)
    (hread : normalizeStory knows version epicId (kept epicJiraKey) index document = .ok story') :
    StoryApart planId (story.written epicJiraKey) story' := by
  refine ⟨SafeId.ext ?_, fun hne => ?_⟩
  · have hid := (normalizeStory_ok hread).2
    rw [document_id hdocument, edited_story, Option.some.injEq, Given.ofText, Given.ofText,
      Given.mk.injEq, Value.str.injEq] at hid
    exact hid.symm
  · have hdraft : edited planId changes story = story.draft := if_neg hne
    rw [hdraft, draft_document, Except.ok.injEq] at hdocument
    rw [← hdocument, normalizeStory_document haccepted] at hread
    exact (Except.ok.inj hread).symm

theorem epicApart_edited {knows : Text → Bool} {version : Version} {planId : Text}
    {changes : List (Text × Option Value)} {epic epic' : Epic} {document : Value} {index : Nat}
    (haccepted : ∀ story ∈ epic.stories, StoryAccepted knows version epic.id epic.jiraKey story)
    (hdocument : epicDocument version (edited planId changes) epic = .ok document)
    (hread : normalizeEpic knows version index document = .ok epic') :
    EpicApart planId epic.written epic' := by
  obtain ⟨documents, hdocuments, hdocument⟩ := bind_eq_ok_iff.mp hdocument
  obtain rfl := Except.ok.inj hdocument
  rw [normalizeEpic_document] at hread
  obtain ⟨stories, hstories, hread⟩ := bind_eq_ok_iff.mp hread
  obtain rfl := Except.ok.inj hread
  refine ⟨rfl, ?_⟩
  have hforall := forall₂_of_sequence hdocuments hstories
  show List.Forall₂ _ (epic.stories.map (Story.written epic.jiraKey)) stories
  rw [List.forall₂_map_left_iff]
  exact ((List.forall₂_and_left _ _).mpr ⟨haccepted, hforall⟩).imp
    fun story story' ⟨hstory, document, i, hdocument, hread⟩ =>
      storyApart_edited hstory hdocument hread

/-- **An edited plan that is saved** is the plan as it is written, but for one Story. -/
theorem apart_persist {knows : Text → Bool} {initiativeId planId : Text}
    {changes : List (Text × Option Value)} {breakdown saved : Breakdown} {file : Value}
    (haccepted : Accepted knows breakdown)
    (h : persistEpicStoryPlan knows initiativeId (breakdownDocument (edited planId changes) breakdown)
      = .ok (saved, file)) :
    Apart planId breakdown.written saved ∧ Accepted knows saved
      ∧ saved.initiativeId = some (.ofText initiativeId)
      ∧ initiativeBreakdownDocument saved = .ok file := by
  obtain ⟨document, hdocument, h⟩ := bind_eq_ok_iff.mp h
  obtain ⟨read, hread, h⟩ := bind_eq_ok_iff.mp h
  obtain ⟨file', hfile, h⟩ := bind_eq_ok_iff.mp h
  cases h
  have hreadAccepted := accepted_of_validate hread
  obtain ⟨documents, hdocuments, hdocument⟩ := bind_eq_ok_iff.mp hdocument
  obtain rfl := Except.ok.inj hdocument
  rw [validate_document] at hread
  obtain ⟨epics, hepics, hread⟩ := bind_eq_ok_iff.mp hread
  obtain ⟨_, -, hread⟩ := bind_eq_ok_iff.mp hread
  obtain rfl := Except.ok.inj hread
  refine ⟨⟨rfl, ?_⟩, ⟨hreadAccepted.stories, hreadAccepted.checked⟩, rfl, hfile⟩
  have hforall := forall₂_of_sequence hdocuments hepics
  show List.Forall₂ _ (breakdown.epics.map Epic.written) epics
  rw [List.forall₂_map_left_iff]
  exact ((List.forall₂_and_left _ _).mpr ⟨haccepted.stories, hforall⟩).imp
    fun epic epic' ⟨hepic, document, i, hdocument, hread⟩ =>
      epicApart_edited hepic hdocument hread

theorem load_accepted {knows : Text → Bool} {initiativeId : Text} {file : Value}
    {breakdown loaded : Breakdown} (h : validateInitiativeBreakdown knows file = .ok breakdown)
    (hload : loadInitiativeBreakdown knows initiativeId file = .ok loaded) :
    loaded = { breakdown with initiativeId := some (.ofText initiativeId) } := by
  rw [loadInitiativeBreakdown, h] at hload
  obtain ⟨_, hok, hload⟩ := bind_eq_ok_iff.mp hload
  obtain rfl := Except.ok.inj hok
  obtain ⟨_, -, hload⟩ := bind_eq_ok_iff.mp hload
  exact (Except.ok.inj hload).symm

/-- A plan that was saved is loaded again. -/
theorem load_saved {knows : Text → Bool} {initiativeId : Text} {file : Value} {saved : Breakdown}
    (haccepted : Accepted knows saved) (hid : saved.initiativeId = some (.ofText initiativeId))
    (hfile : initiativeBreakdownDocument saved = .ok file) :
    loadInitiativeBreakdown knows initiativeId file = .ok saved.written := by
  have hread := validate_written haccepted
  rw [hfile] at hread
  refine bind_eq_ok_iff.mpr ⟨_, hread, bind_eq_ok_iff.mpr ⟨(), failIf_eq_ok_iff.mpr ?_, ?_⟩⟩
  · simp [Breakdown.written, hid, Given.ofText]
  · rw [Breakdown.written, hid]

theorem StoryApart.written {planId : Text} {epicJiraKey : Option Given} {story story' : Story}
    (h : StoryApart planId story story') (hstory : story.written epicJiraKey = story) :
    StoryApart planId story (story'.written epicJiraKey) :=
  ⟨h.1, fun hne => by rw [h.2 hne, hstory]⟩

theorem EpicApart.written {planId : Text} {epic epic' : Epic} (h : EpicApart planId epic epic')
    (hepic : epic.written = epic) : EpicApart planId epic epic'.written := by
  obtain ⟨heq, hstories⟩ := h
  have hkey : kept epic.jiraKey = epic.jiraKey := congrArg Epic.jiraKey hepic
  have hissue : keptIssue epic.jiraIssueId = epic.jiraIssueId := congrArg Epic.jiraIssueId hepic
  have hself := map_eq_self_iff.mp (congrArg Epic.stories hepic)
  rw [heq]
  refine ⟨by simp only [Epic.written, hkey, hissue], ?_⟩
  show List.Forall₂ _ epic.stories (epic'.stories.map (Story.written epic.jiraKey))
  rw [List.forall₂_map_right_iff]
  exact ((List.forall₂_and_left _ _).mpr ⟨hself, hstories⟩).imp fun _ _ h => h.2.written h.1

theorem Apart.written {planId : Text} {breakdown breakdown' : Breakdown}
    (h : Apart planId breakdown breakdown') (hwritten : breakdown.written = breakdown) :
    Apart planId breakdown breakdown'.written := by
  refine ⟨h.1, ?_⟩
  have hself := map_eq_self_iff.mp (congrArg Breakdown.epics hwritten)
  show List.Forall₂ _ breakdown.epics (breakdown'.epics.map Epic.written)
  rw [List.forall₂_map_right_iff]
  exact ((List.forall₂_and_left _ _).mpr ⟨hself, h.2⟩).imp fun _ _ h => h.2.written h.1

/-- Saving a plan loses nothing: it is read back as it is, and an edit of one
Story leaves the rest as it was, in what is returned and in the file. -/
def SavedWhole (knows : Text → Bool) (file : Value) (breakdown : Breakdown) : Prop :=
  (initiativeBreakdownDocument breakdown >>= validateInitiativeBreakdown knows) = .ok breakdown ∧
    ∀ initiativeId planId changes saved file',
      updateEpicStory knows initiativeId file planId changes = .ok (saved, file') →
      Apart planId breakdown saved ∧ ∃ loaded,
        loadInitiativeBreakdown knows initiativeId file' = .ok loaded ∧ Apart planId breakdown loaded

/-- **A plan is saved whole just when every key that it has is written.** -/
theorem savedWhole_iff {knows : Text → Bool} {file : Value} {breakdown : Breakdown}
    (h : validateInitiativeBreakdown knows file = .ok breakdown) :
    SavedWhole knows file breakdown ↔ breakdown.Kept := by
  have haccepted := accepted_of_validate h
  constructor
  · rintro ⟨hback, -⟩
    rw [validate_written haccepted, Except.ok.injEq] at hback
    exact (Breakdown.written_eq_iff haccepted).mp hback
  · intro hkept
    have hwritten := (Breakdown.written_eq_iff haccepted).mpr hkept
    refine ⟨by rw [validate_written haccepted, hwritten], ?_⟩
    intro initiativeId planId changes saved file' hupdate
    obtain ⟨loaded, hloaded, hupdate⟩ := bind_eq_ok_iff.mp hupdate
    obtain ⟨_, -, hupdate⟩ := bind_eq_ok_iff.mp hupdate
    obtain ⟨_, -, hupdate⟩ := bind_eq_ok_iff.mp hupdate
    obtain rfl := load_accepted h hloaded
    -- the plan that is edited has another `initiativeId`, which nothing here reads
    have hloadedAccepted : Accepted knows
        { breakdown with initiativeId := some (.ofText initiativeId) } :=
      ⟨haccepted.stories, haccepted.checked⟩
    obtain ⟨hapart, hsaved, hid, hfile⟩ := apart_persist hloadedAccepted hupdate
    have hapart' : Apart planId breakdown saved := by
      rw [← hwritten]
      exact ⟨hapart.1, hapart.2⟩
    exact ⟨hapart', _, load_saved hsaved hid hfile, hapart'.written hwritten⟩

/-! ## A plan that is not saved whole -/

def sampleStory (id : String) (jiraKey : Value) : Value :=
  .obj [(js "id", .str (js id)), (js "repository", .str (js "app")), (js "jiraKey", jiraKey)]

/-- Two Stories, the first with a key. -/
def samplePlan (jiraKey : Value) : Value :=
  .obj [(js "version", .num (Number.ofNat 1)), (js "epics", .arr [.obj [(js "id", .str (js "EPIC-1")),
    (js "stories", .arr [sampleStory "STORY-001" jiraKey, sampleStory "STORY-002" .null])]])]

def knowsApp (repository : Text) : Bool := repository = js "app"

theorem samplePlan_accepted : ∃ breakdown,
    validateInitiativeBreakdown knowsApp (samplePlan (.str (js "PROJ-1"))) = .ok breakdown := by
  have h : (validateInitiativeBreakdown knowsApp
      (samplePlan (.str (js "PROJ-1")))).toOption.isSome = true := by decide +kernel
  cases hread : validateInitiativeBreakdown knowsApp (samplePlan (.str (js "PROJ-1"))) with
  | error e => rw [hread] at h; cases h
  | ok breakdown => exact ⟨breakdown, rfl⟩

theorem savedWhole_sample : ∃ breakdown,
    validateInitiativeBreakdown knowsApp (samplePlan (.str (js "PROJ-1"))) = .ok breakdown
      ∧ (SavedWhole knowsApp (samplePlan (.str (js "PROJ-1"))) breakdown ↔ breakdown.Kept) := by
  obtain ⟨breakdown, h⟩ := samplePlan_accepted
  exact ⟨breakdown, h, savedWhole_iff h⟩

def firstKey (breakdown : Breakdown) : Option Given := breakdown.stories.head?.bind Story.jiraKey

/-- A new title for the second Story. -/
def rename (jiraKey : Value) : Except Failure (Breakdown × Value) :=
  updateEpicStory knowsApp (js "INIT-1") (samplePlan jiraKey) (js "STORY-002")
    [(js "title", some (.str (js "Renamed")))]

/-- The first Story has an empty key; after the other is renamed it has none,
and the plan is not read back as it was. -/
theorem empty_key_lost :
    (match validateInitiativeBreakdown knowsApp (samplePlan (.str [])), rename (.str []) with
    | .ok breakdown, .ok (saved, _) =>
        decide (firstKey breakdown = some (.ofText []) ∧ firstKey saved = none
          ∧ (initiativeBreakdownDocument breakdown >>= validateInitiativeBreakdown knowsApp)
            ≠ .ok breakdown)
    | _, _ => false) = true := by decide +kernel

/-- An empty key is lost, also when another Story is edited. -/
theorem plan_not_savedWhole : ∃ breakdown saved file,
    validateInitiativeBreakdown knowsApp (samplePlan (.str [])) = .ok breakdown
      ∧ rename (.str []) = .ok (saved, file)
      ∧ firstKey breakdown = some (.ofText []) ∧ firstKey saved = none
      ∧ ¬ SavedWhole knowsApp (samplePlan (.str [])) breakdown := by
  have h := empty_key_lost
  cases hread : validateInitiativeBreakdown knowsApp (samplePlan (.str [])) with
  | error e => rw [hread] at h; cases h
  | ok breakdown =>
      cases hrename : rename (.str []) with
      | error e => rw [hread, hrename] at h; cases h
      | ok result =>
          obtain ⟨saved, file⟩ := result
          rw [hread, hrename] at h
          obtain ⟨hfirst, hlost, hback⟩ := of_decide_eq_true h
          exact ⟨breakdown, saved, file, rfl, rfl, hfirst, hlost, fun hwhole => hback hwhole.1⟩

end Breakdowns

end SingularityFlow
