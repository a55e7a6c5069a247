/-
# Writing a breakdown, and reading it back

`initiativeBreakdownDocument` writes a breakdown without what the reader fills
in again.  It decides member by member what to leave out: a text that is
empty, a list without elements, a key that is not true as a condition.

The Stories it is given may have been edited: `updateEpicStory` assigns any
values to some of their members before it saves them, so that a Story is
written from a `Draft`.  An edited plan is written, read, and written again.

What is read back from an accepted breakdown is `Breakdown.written`, in which
keys that are not true as a condition are gone; it is the breakdown itself
just when there are none (`Breakdown.Kept`).
-/
import SingularityFlow.Initiative.Breakdown

namespace SingularityFlow

open Ecma Ecma.Value

namespace Breakdowns

open Initiatives (isSafeId)

/-! ## Members that may be left out -/

/-- The members that have a value. -/
def compact (fields : List (Text × Option Value)) : List (Text × Value) :=
  fields.filterMap fun field => field.2.map fun v => (field.1, v)

theorem lookup_compact {fields : List (Text × Option Value)}
    (hnames : (fields.map Prod.fst).Nodup) (name : Text) :
    lookup name (compact fields) = (lookup name fields).join := by
  induction fields with
  | nil => rfl
  | cons field fields ih =>
      obtain ⟨first, v⟩ := field
      rw [List.map_cons, List.nodup_cons] at hnames
      have hrest := ih hnames.2
      by_cases h : first = name
      · subst h
        cases v with
        | some v => simp [compact, lookup]
        | none =>
            have hnone : lookup first fields = none := by
              rw [lookup, Option.map_eq_none_iff, List.find?_eq_none]
              intro p hp heq
              exact hnames.1 (List.mem_map.mpr ⟨p, hp, of_decide_eq_true heq⟩)
            rw [hnone] at hrest
            simpa [compact, lookup] using hrest
      · cases v <;> simpa [compact, lookup, h] using hrest

/-- What is read of a member that was written. -/
theorem given?_compact {fields : List (Text × Option Value)} {name : String} {v : Option Value}
    (hnames : (fields.map Prod.fst).Nodup) (h : lookup (js name) fields = some v) :
    given? name (.obj (compact fields)) = given v := by
  rw [given?, member?, lookup_compact hnames, h]
  rfl

/-- `value.length` as a condition. -/
def hasLength : Value → Bool
  | .arr items => items ≠ []
  | .str t => t ≠ []
  | .obj members => (lookup (js "length") members).any truthy
  | _ => false

/-- `Object.keys(value).length` as a condition. -/
def hasKeys : Value → Bool
  | .arr items => items ≠ []
  | .str t => t ≠ []
  | .obj members => members ≠ []
  | _ => false

/-- `value.length ? value : undefined`. -/
def withLength (value : Option Value) : Except Failure (Option Value) :=
  match value with
  | none => .error (.typeError (js "Cannot read properties of undefined (reading 'length')"))
  | some .null => .error (.typeError (js "Cannot read properties of null (reading 'length')"))
  | some v => .ok ((some v).filter hasLength)

/-! ## The values of the records -/

def SafeId.value (id : SafeId) : Value := .str id.text

def lines (l : List Line) : Value := .arr (l.map fun line => .str line.text)

def Metadata.value (metadata : Metadata) : Value :=
  .obj (metadata.entries.map fun entry => (entry.1, .str entry.2))

/-- A member that is null where it is not given. -/
def orNull (v : Option Given) : Value := (v.map Given.value).getD .null

def issue (id : Option Text) : Value := (id.map Value.str).getD .null

def Dependency.value (dependency : Dependency) : Value :=
  .obj [(js "story", dependency.story.value), (js "requiredPhase", dependency.requiredPhase.value)]

def Contract.value (contract : Contract) : Value :=
  .obj [(js "id", contract.id.value), (js "version", issue contract.version),
    (js "sha256", orNull contract.sha256)]

def Task.value (task : Task) : Value :=
  .obj [(js "id", task.id.value), (js "title", .str task.title.text),
    (js "description", .str task.description), (js "acceptanceCriteria", lines task.acceptanceCriteria),
    (js "metadata", task.metadata.value), (js "jiraKey", orNull task.jiraKey),
    (js "jiraIssueId", issue task.jiraIssueId)]

def ParentMode.text : ParentMode → Text
  | .managed => js "managed"
  | .external => js "external"

def Version.value : Version → Value
  | .one => .num (Number.ofNat 1)
  | .two => .num (Number.ofNat 2)

/-! ## Writing -/

/-- A Story to be written: the members that an edit may assign, and the rest. -/
structure Draft where
  story : Story
  title : Option Value
  description : Option Value
  specification : Option Value
  requirements : Option Value
  acceptanceCriteria : Option Value
  repository : Option Value
  blocking : Option Value
  suggestedWorkType : Option Value
  metadata : Option Value
  tasks : Option Value
  dependsOn : Option Value

/-- A Story as it was read. -/
def Story.draft (story : Story) : Draft where
  story := story
  title := some story.title.value
  description := some (.str story.description)
  specification := some (.str story.specification)
  requirements := some (lines story.requirements)
  acceptanceCriteria := some (lines story.acceptanceCriteria)
  repository := some story.repository.value
  blocking := some (.bool story.blocking)
  suggestedWorkType := some story.suggestedWorkType.value
  metadata := some story.metadata.value
  tasks := some (.arr (story.tasks.map Task.value))
  dependsOn := some (.arr (story.dependsOn.map Dependency.value))

def taskFields (task : Value) : List (Text × Option Value) :=
  [(js "id", member? (js "id") task),
    (js "title", member? (js "title") task),
    (js "description", (member? (js "description") task).filter truthy),
    (js "acceptanceCriteria", (member? (js "acceptanceCriteria") task).filter hasLength),
    (js "metadata", (member? (js "metadata") task).filter hasKeys),
    (js "jiraKey", (member? (js "jiraKey") task).filter truthy),
    (js "jiraIssueId", (member? (js "jiraIssueId") task).filter truthy)]

def taskDocument (task : Value) : Except Failure Value :=
  match task with
  | .null => .error (.typeError (js "Cannot read properties of null (reading 'id')"))
  | _ => .ok (.obj (compact (taskFields task)))

def taskDocuments (tasks : Option Value) : Except Failure (Option Value) :=
  match tasks.filter hasLength with
  | none => .ok none
  | some (.arr items) => do
      let documents ← sequence (items.map taskDocument)
      .ok (some (.arr documents))
  | some _ => .error (.typeError (js "story.tasks.map is not a function"))

def storyFields (version : Version) (draft : Draft)
    (acceptanceCriteria tasks dependsOn : Option Value) : List (Text × Option Value) :=
  let story := draft.story
  [(js "planId", if version = .two then some story.id.value else none),
    (js "workId", if version = .two then some story.workId.value else none),
    (js "id", if version = .two then none else some story.id.value),
    (js "title", draft.title),
    (js "description", draft.description.filter truthy),
    (js "specification", draft.specification.filter truthy),
    (js "requirements", draft.requirements.filter hasLength),
    (js "acceptanceCriteria", acceptanceCriteria),
    (js "repository", draft.repository),
    (js "blocking", draft.blocking),
    (js "suggestedWorkType", draft.suggestedWorkType),
    (js "jiraKey", (some (orNull story.jiraKey)).filter truthy),
    (js "initialJiraKey", (some (orNull story.initialJiraKey)).filter truthy),
    (js "jiraAliases", (some (lines story.jiraAliases)).filter hasLength),
    (js "jiraIssueId", (some (issue story.jiraIssueId)).filter truthy),
    (js "epicKey", (some (orNull story.epicKey)).filter truthy),
    (js "estimate", story.estimate.map Given.value),
    (js "idAuthority", (some (orNull story.idAuthority)).filter truthy),
    (js "parentMode",
      if story.parentMode = .managed then none else some (.str story.parentMode.text)),
    (js "metadata", draft.metadata.filter hasKeys),
    (js "tasks", tasks),
    (js "dependsOn", dependsOn),
    (js "consumesContracts",
      (some (.arr (story.consumesContracts.map Contract.value))).filter hasLength)]

def Draft.document (version : Version) (draft : Draft) : Except Failure Value := do
  let acceptanceCriteria ← withLength draft.acceptanceCriteria
  let tasks ← taskDocuments draft.tasks
  let dependsOn ← withLength draft.dependsOn
  .ok (.obj (compact (storyFields version draft acceptanceCriteria tasks dependsOn)))

def epicFields (version : Version) (epic : Epic) (stories : List Value) :
    List (Text × Option Value) :=
  [(js "planId", if version = .two then some epic.id.value else none),
    (js "id", if version = .two then none else some epic.id.value),
    (js "title", some epic.title.value),
    (js "description", (some (.str epic.description)).filter truthy),
    (js "acceptanceCriteria", (some (lines epic.acceptanceCriteria)).filter hasLength),
    (js "jiraKey", (some (orNull epic.jiraKey)).filter truthy),
    (js "jiraIssueId", (some (issue epic.jiraIssueId)).filter truthy),
    (js "stories", some (.arr stories))]

def epicDocument (version : Version) (draft : Story → Draft) (epic : Epic) :
    Except Failure Value := do
  let stories ← sequence (epic.stories.map fun story => (draft story).document version)
  .ok (.obj (compact (epicFields version epic stories)))

def breakdownFields (breakdown : Breakdown) (epics : List Value) : List (Text × Option Value) :=
  [(js "version", some breakdown.version.value),
    (js "initiativeId", some (orNull breakdown.initiativeId)),
    (js "epics", some (.arr epics))]

/-- The document of a breakdown whose Stories are drafts. -/
def breakdownDocument (draft : Story → Draft) (breakdown : Breakdown) : Except Failure Value := do
  let epics ← sequence (breakdown.epics.map (epicDocument breakdown.version draft))
  .ok (.obj (compact (breakdownFields breakdown epics)))

def initiativeBreakdownDocument (breakdown : Breakdown) : Except Failure Value :=
  breakdownDocument Story.draft breakdown

/-! ## Reading what was written -/

theorem line?_text (line : Line) : line? (.str line.text) = some line := by
  obtain ⟨t, hne, htrim⟩ := line
  simp only [line?, htrim, dif_neg hne]

theorem mapM_line? (l : List Line) : (l.map fun line => Value.str line.text).mapM line? = some l := by
  induction l with
  | nil => rfl
  | cons line l ih =>
      rw [List.map_cons, List.mapM_cons, line?_text, ih]
      rfl

theorem textList_lines (l : List Line) (label : Text) :
    textList (given ((some (lines l)).filter hasLength)) label = .ok l := by
  cases l with
  | nil => rfl
  | cons line l =>
      rw [Option.filter_some_pos (by simp [lines, hasLength]), given, dif_neg (by simp [lines])]
      simp only [textList, lines, mapM_line?]

theorem description_text (t message : Text) :
    description (given ((some (.str t)).filter truthy)) message = .ok t := by
  cases t with
  | nil => rfl
  | cons u t => rfl

theorem text?_text (t : Text) : (text? (given ((some (.str t)).filter truthy))).getD [] = t := by
  cases t with
  | nil => rfl
  | cons u t => rfl

/-- A key that is true as a condition. -/
def kept (key : Option Given) : Option Given := key.filter fun v => v.value.truthy

/-- An issue number that is not empty. -/
def keptIssue (id : Option Text) : Option Text := id.filter (· ≠ [])

theorem given_key (key : Option Given) : given ((some (orNull key)).filter truthy) = kept key := by
  cases key with
  | none => rfl
  | some v =>
      rw [orNull, kept, Option.map_some, Option.getD_some, Option.filter_some, Option.filter_some]
      split_ifs
      · exact given_value v
      · rfl

theorem text?_issue (id : Option Text) :
    text? (given ((some (issue id)).filter truthy)) = keptIssue id := by
  cases id with
  | none => rfl
  | some t => cases t <;> rfl

theorem metadataEntry_text (label : Text) {entry : Text × Text} (h : isSafeId entry.1 = true) :
    metadataEntry label (entry.1, .str entry.2) = .ok entry := by
  have hid : safeId (given (some (.str entry.1))) (label ++ js " key") = .ok ⟨entry.1, h⟩ :=
    safeId_eq_ok_iff.mpr rfl
  rw [metadataEntry, hid]
  rfl

theorem metadataMap_obj {members : List (Text × Value)} {label : Text} {entries : List (Text × Text)}
    (h : sequence ((propertyOrder members).map (metadataEntry label)) = .ok entries) :
    metadataMap (given (some (.obj members))) label
      = .ok ⟨entries, metadata_safe h, metadata_listed h⟩ := by
  rw [given, dif_neg nofun, metadataMap]
  split
  · next e he => rw [h] at he; cases he
  · next entries' h' =>
      rw [h] at h'
      cases h'
      rfl

theorem sequence_map_ok {ε α β : Type} {f : β → Except ε α} {g : β → α} {l : List β}
    (h : ∀ b ∈ l, f b = .ok (g b)) : sequence (l.map f) = .ok (l.map g) := by
  rw [List.map_congr_left h, ← sequence_ok, List.map_map]
  rfl

theorem metadataMap_value (metadata : Metadata) (label : Text) :
    metadataMap (given ((some metadata.value).filter hasKeys)) label = .ok metadata := by
  obtain ⟨entries, hsafe, hlisted⟩ := metadata
  cases entries with
  | nil => rfl
  | cons entry rest =>
      have hread : sequence ((propertyOrder ((entry :: rest).map fun e => (e.1, Value.str e.2))).map
          (metadataEntry label)) = .ok (entry :: rest) := by
        rw [propertyOrder_map (f := fun e : Text × Text => (e.1, Value.str e.2)) fun _ => rfl, hlisted,
          List.map_map]
        exact (sequence_map_ok (g := id) fun e he => metadataEntry_text label (hsafe e he)).trans
          (congrArg Except.ok (List.map_id _))
      rw [Option.filter_some_pos (by simp [Metadata.value, hasKeys])]
      exact metadataMap_obj hread

theorem normalizeDependency_value (storyId : Text) (dependency : Dependency) :
    normalizeDependency storyId dependency.value = .ok dependency := by
  have hstory : given? "story" dependency.value = some (.ofText dependency.story.text) := rfl
  have hphase : given? "requiredPhase" dependency.value = some dependency.requiredPhase :=
    given_value dependency.requiredPhase
  have href : reference "story" dependency.value = dependency.value := rfl
  rw [normalizeDependency, href, hstory, hphase, safeId_ofText]
  rfl

theorem given_orNull (v : Option Given) : given (some (orNull v)) = v := by
  cases v with
  | none => rfl
  | some v => exact given_value v

theorem normalizeContract_value (storyId : Text) (contract : Contract) :
    normalizeContract storyId contract.value = .ok contract := by
  have hid : given? "id" contract.value = some (.ofText contract.id.text) := rfl
  have hversion : text? (given? "version" contract.value) = contract.version := by
    obtain ⟨_, version, _⟩ := contract
    cases version <;> rfl
  have hsha : given? "sha256" contract.value = contract.sha256 := given_orNull contract.sha256
  have href : reference "id" contract.value = contract.value := rfl
  rw [normalizeContract, href, hid, hversion, hsha, safeId_ofText]
  rfl

/-- A list of references, where it has elements. -/
theorem items_filter {expression : String} (l : List Value) :
    items (given ((some (.arr l)).filter hasLength)) expression = .ok l := by
  cases l with
  | nil => rfl
  | cons v l => rfl

/-! ## Tasks -/

theorem taskFields_names (task : Value) : ((taskFields task).map Prod.fst).Nodup := by
  have h : (taskFields task).map Prod.fst = [js "id", js "title", js "description",
    js "acceptanceCriteria", js "metadata", js "jiraKey", js "jiraIssueId"] := rfl
  rw [h]
  decide

/-- A task without the keys that are not written. -/
def Task.written (task : Task) : Task :=
  { task with jiraKey := kept task.jiraKey, jiraIssueId := keptIssue task.jiraIssueId }

theorem taskTitle_text (title : Line) (id : SafeId) :
    taskTitle (some (.ofText title.text)) id = title := by
  obtain ⟨t, hne, htrim⟩ := title
  simp only [taskTitle, text?, Option.map_some, Option.getD_some, Given.ofText, Value.toText, htrim,
    dif_neg hne]

/-- What is written of a task. -/
def Task.document (task : Task) : Value := .obj (compact (taskFields task.value))

theorem normalizeTask_document (storyId : Text) (index : Nat) (task : Task) :
    normalizeTask storyId index task.document = .ok task.written := by
  rw [Task.document]
  have hread : ∀ {name : String} {v : Option Value},
      lookup (js name) (taskFields task.value) = some v →
      given? name (.obj (compact (taskFields task.value))) = given v :=
    given?_compact (taskFields_names task.value)
  have hid : given? "id" (.obj (compact (taskFields task.value))) = some (.ofText task.id.text) :=
    hread (v := some task.id.value) rfl
  have htitle : given? "title" (.obj (compact (taskFields task.value)))
      = some (.ofText task.title.text) := hread (v := some (.str task.title.text)) rfl
  have hdescription : given? "description" (.obj (compact (taskFields task.value)))
      = given ((some (.str task.description)).filter truthy) := hread rfl
  have hcriteria : given? "acceptanceCriteria" (.obj (compact (taskFields task.value)))
      = given ((some (lines task.acceptanceCriteria)).filter hasLength) := hread rfl
  have hmetadata : given? "metadata" (.obj (compact (taskFields task.value)))
      = given ((some task.metadata.value).filter hasKeys) := hread rfl
  have hkey : given? "jiraKey" (.obj (compact (taskFields task.value)))
      = given ((some (orNull task.jiraKey)).filter truthy) := hread rfl
  have hissue : given? "jiraIssueId" (.obj (compact (taskFields task.value)))
      = given ((some (issue task.jiraIssueId)).filter truthy) := hread rfl
  rw [normalizeTask, hid, hdescription, hcriteria, hmetadata, htitle, hkey, hissue, given_key,
    text?_issue]
  refine bind_eq_ok_iff.mpr ⟨(), rfl, bind_eq_ok_iff.mpr ⟨task.id, safeId_ofText _ _, ?_⟩⟩
  refine bind_eq_ok_iff.mpr ⟨_, description_text _ _, bind_eq_ok_iff.mpr ⟨_, textList_lines _ _, ?_⟩⟩
  refine bind_eq_ok_iff.mpr ⟨_, metadataMap_value _ _, ?_⟩
  rw [taskTitle_text]
  rfl

theorem sequence_mapIdx_ok {ε α β γ : Type} {f : Nat → β → Except ε α} {g : γ → β} {h : γ → α}
    {l : List γ} (hf : ∀ i, ∀ c ∈ l, f i (g c) = .ok (h c)) :
    sequence ((l.map g).mapIdx f) = .ok (l.map h) := by
  induction l generalizing f with
  | nil => rfl
  | cons c l ih =>
      rw [List.map_cons, List.mapIdx_cons, hf 0 c (List.mem_cons_self ..), sequence,
        ih fun i d hd => hf (i + 1) d (List.mem_cons_of_mem _ hd)]
      rfl

theorem taskDocuments_value (tasks : List Task) :
    taskDocuments (some (.arr (tasks.map Task.value)))
      = .ok ((some (.arr (tasks.map Task.document))).filter hasLength) := by
  cases tasks with
  | nil => rfl
  | cons task tasks =>
      have hdocuments : sequence (((task :: tasks).map Task.value).map taskDocument)
          = .ok ((task :: tasks).map Task.document) := by
        rw [List.map_map]
        exact sequence_map_ok fun _ _ => rfl
      rw [taskDocuments, Option.filter_some_pos (by simp [hasLength]),
        Option.filter_some_pos (by simp [hasLength])]
      exact bind_eq_ok_iff.mpr ⟨_, hdocuments, rfl⟩

/-! ## Stories -/

theorem storyFields_names (version : Version) (draft : Draft)
    (acceptanceCriteria tasks dependsOn : Option Value) :
    ((storyFields version draft acceptanceCriteria tasks dependsOn).map Prod.fst).Nodup := by
  have h : (storyFields version draft acceptanceCriteria tasks dependsOn).map Prod.fst
      = [js "planId", js "workId", js "id", js "title", js "description", js "specification",
        js "requirements", js "acceptanceCriteria", js "repository", js "blocking",
        js "suggestedWorkType", js "jiraKey", js "initialJiraKey", js "jiraAliases",
        js "jiraIssueId", js "epicKey", js "estimate", js "idAuthority", js "parentMode",
        js "metadata", js "tasks", js "dependsOn", js "consumesContracts"] := rfl
  rw [h]
  decide

/-- What a Story of an accepted breakdown satisfies. -/
structure StoryAccepted (knows : Text → Bool) (version : Version) (epicId : SafeId)
    (epicJiraKey : Option Given) (story : Story) : Prop where
  epicId_eq : story.epicId = epicId
  repository_known : knows story.repository.text = true
  workId_eq : version = .one → story.workId = story.id
  jiraKey_none : story.initialJiraKey = none → story.jiraKey = none
  epicKey_none : story.epicKey = none → epicJiraKey = none
  checked : checkStory version story = .ok ()

/-- A Story without the keys that are not written; others stand in for some of them. -/
def Story.written (epicJiraKey : Option Given) (story : Story) : Story :=
  { story with
    jiraKey := kept story.jiraKey
    initialJiraKey := (kept story.initialJiraKey).or (kept story.jiraKey)
    jiraIssueId := keptIssue story.jiraIssueId
    epicKey := (kept story.epicKey).or (kept epicJiraKey)
    idAuthority := kept story.idAuthority
    tasks := story.tasks.map Task.written }

theorem checkStory_written (version : Version) (epicJiraKey : Option Given) (story : Story) :
    checkStory version (story.written epicJiraKey) = checkStory version story := by
  have hids : (story.tasks.map Task.written).map (fun task => task.id.text)
      = story.tasks.map fun task => task.id.text := by
    rw [List.map_map]
    rfl
  simp only [checkStory, Story.written, hids]

/-- What is written of a Story as it was read. -/
def Story.document (version : Version) (story : Story) : Value :=
  .obj (compact (storyFields version story.draft
    ((some (lines story.acceptanceCriteria)).filter hasLength)
    ((some (.arr (story.tasks.map Task.document))).filter hasLength)
    ((some (.arr (story.dependsOn.map Dependency.value))).filter hasLength)))

theorem draft_document (version : Version) (story : Story) :
    story.draft.document version = .ok (story.document version) := by
  refine bind_eq_ok_iff.mpr ⟨_, rfl, bind_eq_ok_iff.mpr ⟨_, taskDocuments_value story.tasks, ?_⟩⟩
  exact bind_eq_ok_iff.mpr ⟨_, rfl, rfl⟩

/-- **A Story of an accepted breakdown is read back**, without the keys that
are not true as a condition. -/
theorem normalizeStory_document {knows : Text → Bool} {version : Version} {epicId : SafeId}
    {epicJiraKey : Option Given} {story : Story}
    (h : StoryAccepted knows version epicId epicJiraKey story) (index : Nat) :
    normalizeStory knows version epicId (kept epicJiraKey) index (story.document version)
      = .ok (story.written epicJiraKey) := by
  have hread : ∀ {name : String} {v : Option Value},
      lookup (js name) (storyFields version story.draft
        ((some (lines story.acceptanceCriteria)).filter hasLength)
        ((some (.arr (story.tasks.map Task.document))).filter hasLength)
        ((some (.arr (story.dependsOn.map Dependency.value))).filter hasLength)) = some v →
      given? name (story.document version) = given v :=
    given?_compact (storyFields_names ..)
  have hplanId : given? "planId" (story.document version)
      = given (if version = .two then some story.id.value else none) := hread rfl
  have hworkId : given? "workId" (story.document version)
      = given (if version = .two then some story.workId.value else none) := hread rfl
  have hid : given? "id" (story.document version)
      = given (if version = .two then none else some story.id.value) := hread rfl
  have htitle : given? "title" (story.document version) = some story.title :=
    (hread rfl).trans (given_value story.title)
  have hdescription : given? "description" (story.document version)
      = given ((some (.str story.description)).filter truthy) := hread rfl
  have hspecification : given? "specification" (story.document version)
      = given ((some (.str story.specification)).filter truthy) := hread rfl
  have hrequirements : given? "requirements" (story.document version)
      = given ((some (lines story.requirements)).filter hasLength) := hread rfl
  have hcriteria : given? "acceptanceCriteria" (story.document version)
      = given ((some (lines story.acceptanceCriteria)).filter hasLength) := hread rfl
  have hrepository : given? "repository" (story.document version)
      = some (.ofText story.repository.text) := hread (v := some story.repository.value) rfl
  have hblocking : given? "blocking" (story.document version)
      = given (some (.bool story.blocking)) := hread rfl
  have hwork : given? "suggestedWorkType" (story.document version) = some story.suggestedWorkType :=
    (hread rfl).trans (given_value story.suggestedWorkType)
  have hjira : given? "jiraKey" (story.document version) = kept story.jiraKey :=
    (hread rfl).trans (given_key story.jiraKey)
  have hinitial : given? "initialJiraKey" (story.document version) = kept story.initialJiraKey :=
    (hread rfl).trans (given_key story.initialJiraKey)
  have haliases : given? "jiraAliases" (story.document version)
      = given ((some (lines story.jiraAliases)).filter hasLength) := hread rfl
  have hissue : given? "jiraIssueId" (story.document version)
      = given ((some (issue story.jiraIssueId)).filter truthy) := hread rfl
  have hepicKey : given? "epicKey" (story.document version) = kept story.epicKey :=
    (hread rfl).trans (given_key story.epicKey)
  have hestimate : given? "estimate" (story.document version)
      = given (story.estimate.map Given.value) := hread rfl
  have hauthority : given? "idAuthority" (story.document version) = kept story.idAuthority :=
    (hread rfl).trans (given_key story.idAuthority)
  have hmode : given? "parentMode" (story.document version)
      = given (if story.parentMode = .managed then none else some (.str story.parentMode.text)) :=
    hread rfl
  have hmetadata : given? "metadata" (story.document version)
      = given ((some story.metadata.value).filter hasKeys) := hread rfl
  have htasks : given? "tasks" (story.document version)
      = given ((some (.arr (story.tasks.map Task.document))).filter hasLength) := hread rfl
  have hdepends : given? "dependsOn" (story.document version)
      = given ((some (.arr (story.dependsOn.map Dependency.value))).filter hasLength) := hread rfl
  have hcontracts : given? "consumesContracts" (story.document version)
      = given ((some (.arr (story.consumesContracts.map Contract.value))).filter hasLength) :=
    hread rfl
  have hidRead : (given? "planId" (story.document version)).or (given? "id" (story.document version))
      = some (.ofText story.id.text) := by
    rw [hplanId, hid]
    cases version <;> rfl
  have hworkIdRead : ∀ label, safeId (if version = .two then
      ((given? "workId" (story.document version)).or (kept story.jiraKey)).or
        (some (.ofText story.id.text)) else some (.ofText story.id.text)) label
      = .ok story.workId := by
    intro label
    rw [hworkId]
    cases version with
    | one => rw [if_neg nofun, ← h.workId_eq rfl, safeId_ofText]
    | two => exact safeId_ofText story.workId label
  have hmodeRead : parentMode story.id.text (given? "parentMode" (story.document version))
      = .ok story.parentMode := by
    rw [hmode]
    cases story.parentMode <;> rfl
  have hblockingRead : ((given? "blocking" (story.document version)).all
      fun v => v.value ≠ .bool false) = story.blocking := by
    rw [hblocking]
    cases story.blocking <;> rfl
  have hestimateRead : given? "estimate" (story.document version) = story.estimate := by
    rw [hestimate]
    cases story.estimate with
    | none => rfl
    | some v => exact given_value v
  have hdependencies : sequence ((story.dependsOn.map Dependency.value).map
      (normalizeDependency story.id.text)) = .ok story.dependsOn := by
    rw [List.map_map]
    exact (sequence_map_ok (g := id) fun _ _ => normalizeDependency_value _ _).trans
      (congrArg Except.ok (List.map_id _))
  have hcontractsRead : sequence ((story.consumesContracts.map Contract.value).map
      (normalizeContract story.id.text)) = .ok story.consumesContracts := by
    rw [List.map_map]
    exact (sequence_map_ok (g := id) fun _ _ => normalizeContract_value _ _).trans
      (congrArg Except.ok (List.map_id _))
  have htasksRead : sequence ((story.tasks.map Task.document).mapIdx (normalizeTask story.id.text))
      = .ok (story.tasks.map Task.written) :=
    sequence_mapIdx_ok fun index task _ => normalizeTask_document _ index task
  have hstory : readStory knows version epicId (kept epicJiraKey) index (story.document version)
      = .ok (story.written epicJiraKey) := by
    rw [readStory, hidRead, hrepository, hdescription, hjira, hrequirements, hcriteria, hdepends,
      hcontracts, haliases, hmetadata, htasks, htitle, hspecification, hblockingRead, hwork, hinitial,
      hissue, hepicKey, hestimateRead, hauthority, text?_text, text?_issue]
    refine bind_eq_ok_iff.mpr ⟨(), rfl, bind_eq_ok_iff.mpr ⟨story.id, safeId_ofText _ _, ?_⟩⟩
    refine bind_eq_ok_iff.mpr ⟨story.repository, safeId_ofText _ _, ?_⟩
    refine bind_eq_ok_iff.mpr ⟨_, description_text _ _, bind_eq_ok_iff.mpr ⟨(), ?_, ?_⟩⟩
    · exact failIf_eq_ok_iff.mpr (by rw [h.repository_known]; decide)
    refine bind_eq_ok_iff.mpr ⟨_, hworkIdRead _, bind_eq_ok_iff.mpr ⟨_, textList_lines _ _, ?_⟩⟩
    refine bind_eq_ok_iff.mpr ⟨_, textList_lines _ _, bind_eq_ok_iff.mpr ⟨_, items_filter _, ?_⟩⟩
    refine bind_eq_ok_iff.mpr ⟨_, hdependencies, bind_eq_ok_iff.mpr ⟨_, items_filter _, ?_⟩⟩
    refine bind_eq_ok_iff.mpr ⟨_, hcontractsRead, bind_eq_ok_iff.mpr ⟨_, textList_lines _ _, ?_⟩⟩
    refine bind_eq_ok_iff.mpr ⟨_, metadataMap_value _ _, bind_eq_ok_iff.mpr ⟨_, items_filter _, ?_⟩⟩
    refine bind_eq_ok_iff.mpr ⟨_, htasksRead, bind_eq_ok_iff.mpr ⟨_, hmodeRead, ?_⟩⟩
    rw [← h.epicId_eq]
    rfl
  refine bind_eq_ok_iff.mpr ⟨_, hstory, bind_eq_ok_iff.mpr ⟨(), ?_, rfl⟩⟩
  rw [checkStory_written, h.checked]

/-! ## Epics -/

theorem epicFields_names (version : Version) (epic : Epic) (stories : List Value) :
    ((epicFields version epic stories).map Prod.fst).Nodup := by
  have h : (epicFields version epic stories).map Prod.fst = [js "planId", js "id", js "title",
    js "description", js "acceptanceCriteria", js "jiraKey", js "jiraIssueId", js "stories"] := rfl
  rw [h]
  decide

/-- An Epic without the keys that are not written. -/
def Epic.written (epic : Epic) : Epic :=
  { epic with
    jiraKey := kept epic.jiraKey
    jiraIssueId := keptIssue epic.jiraIssueId
    stories := epic.stories.map (Story.written epic.jiraKey) }

/-- What is read of an Epic that is written with any documents of its Stories. -/
theorem normalizeEpic_document (knows : Text → Bool) (version : Version) (epic : Epic)
    (documents : List Value) (index : Nat) :
    normalizeEpic knows version index (.obj (compact (epicFields version epic documents)))
      = (sequence (documents.mapIdx (normalizeStory knows version epic.id (kept epic.jiraKey)))
        >>= fun stories => .ok { epic.written with stories }) := by
  have hread : ∀ (name : String) {v : Option Value},
      lookup (js name) (epicFields version epic documents) = some v →
      given? name (.obj (compact (epicFields version epic documents))) = given v :=
    fun _ => given?_compact (epicFields_names ..)
  have hobject : isObject (.obj (compact (epicFields version epic documents))) = true := rfl
  generalize Value.obj (compact (epicFields version epic documents)) = document at hread hobject
  have hid : (given? "planId" document).or (given? "id" document) = some (.ofText epic.id.text) := by
    rw [hread "planId" rfl, hread "id" rfl]
    cases version <;> rfl
  have htitle : given? "title" document = some epic.title :=
    (hread "title" rfl).trans (given_value epic.title)
  have hjira : given? "jiraKey" document = kept epic.jiraKey :=
    (hread "jiraKey" rfl).trans (given_key epic.jiraKey)
  have hstories : given? "stories" document = given (some (.arr documents)) := hread "stories" rfl
  have harray : ∀ message, array (given (some (.arr documents))) message = .ok documents :=
    fun _ => rfl
  simp only [normalizeEpic, hobject, failIf, hid, safeId_ofText, htitle, hjira, hstories, harray,
    hread "description" rfl, description_text, hread "acceptanceCriteria" rfl, textList_lines,
    hread "jiraIssueId" rfl, text?_issue, bind, Except.bind]
  rfl

/-! ## Breakdowns -/

/-- A breakdown without the keys that are not written. -/
def Breakdown.written (breakdown : Breakdown) : Breakdown :=
  { breakdown with epics := breakdown.epics.map Epic.written }

/-- What an accepted breakdown satisfies. -/
structure Accepted (knows : Text → Bool) (breakdown : Breakdown) : Prop where
  stories : ∀ epic ∈ breakdown.epics, ∀ story ∈ epic.stories,
    StoryAccepted knows breakdown.version epic.id epic.jiraKey story
  checked : checkStories breakdown.stories = .ok ()

theorem SafeId.ext {id id' : SafeId} (h : id.text = id'.text) : id = id' := by
  cases id
  cases id'
  cases h
  rfl

/-- A Story that is read satisfies what is accepted, and has the name that is given. -/
theorem normalizeStory_ok {knows : Text → Bool} {version : Version} {epicId : SafeId}
    {epicJiraKey : Option Given} {index : Nat} {raw : Value} {story : Story}
    (h : normalizeStory knows version epicId epicJiraKey index raw = .ok story) :
    StoryAccepted knows version epicId epicJiraKey story
      ∧ (given? "planId" raw).or (given? "id" raw) = some (.ofText story.id.text) := by
  obtain ⟨read, hread, h⟩ := bind_eq_ok_iff.mp h
  obtain ⟨_, hchecked, h⟩ := bind_eq_ok_iff.mp h
  obtain rfl := Except.ok.inj h
  obtain ⟨_, -, h⟩ := bind_eq_ok_iff.mp hread
  obtain ⟨id, hid, h⟩ := bind_eq_ok_iff.mp h
  obtain ⟨repository, -, h⟩ := bind_eq_ok_iff.mp h
  obtain ⟨description, -, h⟩ := bind_eq_ok_iff.mp h
  obtain ⟨_, hknown, h⟩ := bind_eq_ok_iff.mp h
  obtain ⟨workId, hworkId, h⟩ := bind_eq_ok_iff.mp h
  obtain ⟨requirements, -, h⟩ := bind_eq_ok_iff.mp h
  obtain ⟨criteria, -, h⟩ := bind_eq_ok_iff.mp h
  obtain ⟨_, -, h⟩ := bind_eq_ok_iff.mp h
  obtain ⟨dependsOn, -, h⟩ := bind_eq_ok_iff.mp h
  obtain ⟨_, -, h⟩ := bind_eq_ok_iff.mp h
  obtain ⟨contracts, -, h⟩ := bind_eq_ok_iff.mp h
  obtain ⟨aliases, -, h⟩ := bind_eq_ok_iff.mp h
  obtain ⟨metadata, -, h⟩ := bind_eq_ok_iff.mp h
  obtain ⟨_, -, h⟩ := bind_eq_ok_iff.mp h
  obtain ⟨tasks, -, h⟩ := bind_eq_ok_iff.mp h
  obtain ⟨mode, -, h⟩ := bind_eq_ok_iff.mp h
  obtain rfl := Except.ok.inj h
  refine ⟨⟨rfl, by simpa using hknown, fun hone => ?_, fun hnone => ?_, fun hnone => ?_, hchecked⟩,
    safeId_eq_ok_iff.mp hid⟩
  · rw [hone, if_neg (by rintro ⟨⟩), safeId_ofText] at hworkId
    exact (Except.ok.inj hworkId).symm
  · exact (Option.or_eq_none_iff.mp hnone).2
  · exact (Option.or_eq_none_iff.mp hnone).2

theorem normalizeEpic_ok {knows : Text → Bool} {version : Version} {index : Nat} {raw : Value}
    {epic : Epic} (h : normalizeEpic knows version index raw = .ok epic) :
    ∀ story ∈ epic.stories, StoryAccepted knows version epic.id epic.jiraKey story := by
  obtain ⟨_, -, h⟩ := bind_eq_ok_iff.mp h
  obtain ⟨id, -, h⟩ := bind_eq_ok_iff.mp h
  obtain ⟨rawStories, -, h⟩ := bind_eq_ok_iff.mp h
  obtain ⟨description, -, h⟩ := bind_eq_ok_iff.mp h
  obtain ⟨criteria, -, h⟩ := bind_eq_ok_iff.mp h
  obtain ⟨stories, hstories, h⟩ := bind_eq_ok_iff.mp h
  obtain rfl := Except.ok.inj h
  intro story hstory
  obtain ⟨i, raw, hraw⟩ := exists_of_sequence_mapIdx hstories hstory
  exact (normalizeStory_ok hraw).1

theorem accepted_of_validate {knows : Text → Bool} {raw : Value} {breakdown : Breakdown}
    (h : validateInitiativeBreakdown knows raw = .ok breakdown) : Accepted knows breakdown := by
  obtain ⟨hchecked, rawEpics, hepics⟩ := validate_ok h
  refine ⟨fun epic hepic => ?_, hchecked⟩
  obtain ⟨i, raw, hraw⟩ := exists_of_sequence_mapIdx hepics hepic
  exact normalizeEpic_ok hraw

/-- A Story and another of its name and with its dependencies. -/
def SamePlace (story story' : Story) : Prop :=
  story'.id = story.id ∧ story'.dependsOn = story.dependsOn

/-- The checks across Stories read the names and the dependencies. -/
theorem checkStories_congr {stories stories' : List Story}
    (h : List.Forall₂ SamePlace stories stories') :
    checkStories stories' = checkStories stories := by
  have hids : stories'.map (fun s => s.id.text) = stories.map fun s => s.id.text := by
    induction h with
    | nil => rfl
    | cons hs _ ih => rw [List.map_cons, List.map_cons, ih, hs.1]
  have hchecks : ∀ known, stories'.map (checkDependencies known)
      = stories.map (checkDependencies known) := by
    intro known
    clear hids
    induction h with
    | nil => rfl
    | cons hs _ ih =>
        rw [List.map_cons, List.map_cons, ih]
        simp only [checkDependencies, Story.dependencies, hs.1, hs.2]
        rfl
  have hdeps : dependenciesOf stories' = dependenciesOf stories := by
    funext id
    clear hids hchecks
    unfold dependenciesOf
    induction h with
    | nil => rfl
    | @cons s s' _ _ hs _ ih =>
        rw [List.find?_cons, List.find?_cons, hs.1]
        split
        · simp only [Option.map_some, Story.dependencies, hs.2]
        · exact ih
  simp only [checkStories, checkCycles, hids, hchecks, hdeps]

theorem forall₂_flatMap {α β γ δ : Type} {R : α → β → Prop} {S : γ → δ → Prop} {f : α → List γ}
    {g : β → List δ} (hfg : ∀ a b, R a b → List.Forall₂ S (f a) (g b)) {l : List α} {m : List β}
    (h : List.Forall₂ R l m) : List.Forall₂ S (l.flatMap f) (m.flatMap g) := by
  induction h with
  | nil => exact .nil
  | cons hab _ ih => exact List.rel_append (hfg _ _ hab) ih

theorem forall₂_map_self {α β : Type} {R : α → β → Prop} {f : α → β} (h : ∀ a, R a (f a))
    (l : List α) : List.Forall₂ R l (l.map f) := by
  rw [List.forall₂_map_right_iff, List.forall₂_same]
  exact fun a _ => h a

theorem samePlace_written (epics : List Epic) :
    List.Forall₂ SamePlace (epics.flatMap Epic.stories)
      ((epics.map Epic.written).flatMap Epic.stories) := by
  refine forall₂_flatMap (R := fun e e' => e' = e.written) ?_
    (forall₂_map_self (R := fun e e' => e' = e.written) (fun _ => rfl) epics)
  rintro epic _ rfl
  exact forall₂_map_self (fun _ => ⟨rfl, rfl⟩) epic.stories

/-- What is read of the document of a breakdown, from what is read of its Epics. -/
theorem validate_document (knows : Text → Bool) (breakdown : Breakdown) (documents : List Value) :
    validateInitiativeBreakdown knows (.obj (compact (breakdownFields breakdown documents)))
      = (sequence (documents.mapIdx (normalizeEpic knows breakdown.version)) >>= fun epics =>
          checkStories (epics.flatMap Epic.stories) >>= fun _ => .ok { breakdown with epics }) := by
  have hnames : ((breakdownFields breakdown documents).map Prod.fst).Nodup := by
    have h : (breakdownFields breakdown documents).map Prod.fst
        = [js "version", js "initiativeId", js "epics"] := rfl
    rw [h]
    decide
  have hread : ∀ (name : String) {v : Option Value},
      lookup (js name) (breakdownFields breakdown documents) = some v →
      given? name (.obj (compact (breakdownFields breakdown documents))) = given v :=
    fun _ => given?_compact hnames
  have hversion : breakdownVersion
      (given? "version" (.obj (compact (breakdownFields breakdown documents))))
      = .ok breakdown.version := by
    rw [hread "version" rfl]
    cases breakdown.version <;> decide +kernel
  have hinitiative : given? "initiativeId" (.obj (compact (breakdownFields breakdown documents)))
      = breakdown.initiativeId := (hread "initiativeId" rfl).trans (given_orNull _)
  have hepics : array (given? "epics" (.obj (compact (breakdownFields breakdown documents))))
      (js "Initiative breakdown epics must be an array.") = .ok documents := by
    rw [hread "epics" rfl]
    rfl
  rw [validateInitiativeBreakdown, hversion, hepics, hinitiative]
  rfl

/-- What is written of an Epic as it was read. -/
def Epic.document (version : Version) (epic : Epic) : Value :=
  .obj (compact (epicFields version epic (epic.stories.map (Story.document version))))

theorem epicDocument_draft (version : Version) (epic : Epic) :
    epicDocument version Story.draft epic = .ok (epic.document version) :=
  bind_eq_ok_iff.mpr ⟨_, sequence_map_ok fun story _ => draft_document version story, rfl⟩

/-- **The document of an accepted breakdown is accepted**, and what is read of
it is the breakdown without the keys that are not written. -/
theorem validate_written {knows : Text → Bool} {breakdown : Breakdown}
    (h : Accepted knows breakdown) :
    (initiativeBreakdownDocument breakdown >>= validateInitiativeBreakdown knows)
      = .ok breakdown.written := by
  have hepics : sequence (breakdown.epics.map (epicDocument breakdown.version Story.draft))
      = .ok (breakdown.epics.map (Epic.document breakdown.version)) :=
    sequence_map_ok fun epic _ => epicDocument_draft _ epic
  have hread : sequence ((breakdown.epics.map (Epic.document breakdown.version)).mapIdx
      (normalizeEpic knows breakdown.version)) = .ok (breakdown.epics.map Epic.written) := by
    refine sequence_mapIdx_ok fun index epic hepic => ?_
    rw [Epic.document, normalizeEpic_document]
    exact bind_eq_ok_iff.mpr ⟨_, sequence_mapIdx_ok fun i story hstory =>
      normalizeStory_document (h.stories epic hepic story hstory) i, rfl⟩
  refine bind_eq_ok_iff.mpr ⟨_, bind_eq_ok_iff.mpr ⟨_, hepics, rfl⟩, ?_⟩
  rw [validate_document, hread]
  refine bind_eq_ok_iff.mpr ⟨_, rfl, bind_eq_ok_iff.mpr ⟨(), ?_, rfl⟩⟩
  rw [checkStories_congr (samePlace_written breakdown.epics)]
  exact h.checked

end Breakdowns

end SingularityFlow
