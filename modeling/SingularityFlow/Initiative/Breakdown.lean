/-
# The breakdown of an Initiative into Stories

A breakdown lists Epics, and under each its Stories with their tasks, the
Stories they depend on, and the contracts they consume.  It is written by hand
or by a model; `validateInitiativeBreakdown` reads it and fills in what is not
said.  The records here hold what it returns: a list of texts is trimmed and
has no empty one, an identifier is safe, and a value that is taken as it is
written (`Given`) is not null.

The dependencies of an accepted breakdown are on its own Stories, and grounded:
no Story depends on itself through others.
-/
import SingularityFlow.Initiative.State
import SingularityFlow.Lib.Coercion
import SingularityFlow.Lib.DepthFirst

namespace SingularityFlow

open Ecma Ecma.Value

namespace Breakdowns

open Initiatives (isSafeId isSafeUnit)

/-! ## Values that are read -/

/-- A value that is neither undefined nor null. -/
structure Given where
  value : Value
  ne_null : value ≠ .null
deriving DecidableEq

def Given.ofText (t : Text) : Given := ⟨.str t, nofun⟩

/-- `value ?? …`: null counts as absent. -/
def given : Option Value → Option Given
  | none => none
  | some v => if h : v = .null then none else some ⟨v, h⟩

@[simp] theorem given_none : given none = none := rfl

@[simp] theorem given_null : given (some .null) = none := rfl

@[simp] theorem given_value (v : Given) : given (some v.value) = some v := dif_neg v.ne_null

@[simp] theorem given_str (t : Text) : given (some (.str t)) = some (.ofText t) := rfl

/-- A member, where it is given. -/
def given? (name : String) (raw : Value) : Option Given := given (member? (js name) raw)

/-- `value && typeof value === 'object'`. -/
def isObject : Value → Bool
  | .obj _ | .arr _ => true
  | _ => false

/-- `String(value)` of a value that is given. -/
def text? (value : Option Given) : Option Text := value.map fun v => v.value.toText

/-- An identifier. -/
structure SafeId where
  text : Text
  safe : isSafeId text = true
deriving DecidableEq

/-- A text with nothing to trim. -/
structure Line where
  text : Text
  ne_nil : text ≠ []
  trimmed : trim text = text
deriving DecidableEq

def safeId (value : Option Given) (label : Text) : Except Failure SafeId :=
  match value with
  | some ⟨.str id, _⟩ =>
      if h : isSafeId id = true then .ok ⟨id, h⟩
      else .error (refuse (label ++ js " must be a safe identifier."))
  | _ => .error (refuse (label ++ js " must be a safe identifier."))

def line? : Value → Option Line
  | .str t => if h : trim t = [] then none else some ⟨trim t, h, trim_trim t⟩
  | _ => none

def textList (value : Option Given) (label : Text) : Except Failure (List Line) :=
  match value with
  | none => .ok []
  | some ⟨.arr items, _⟩ =>
      match items.mapM line? with
      | some lines => .ok lines
      | none => .error (refuse (label ++ js " must be an array of non-empty strings."))
  | some _ => .error (refuse (label ++ js " must be an array of non-empty strings."))

/-- A text, or an error; absent, it is empty. -/
def description (value : Option Given) (message : Text) : Except Failure Text :=
  match value with
  | none => .ok []
  | some ⟨.str t, _⟩ => .ok t
  | some _ => .error (refuse message)

def plainObject (raw : Value) (message : Text) : Except Failure Unit :=
  match raw with
  | .obj _ => .ok ()
  | _ => .error (refuse message)

def array (value : Option Given) (message : Text) : Except Failure (List Value) :=
  match value with
  | some ⟨.arr items, _⟩ => .ok items
  | _ => .error (refuse message)

/-- `(value ?? []).map`. -/
def items (value : Option Given) (expression : String) : Except Failure (List Value) :=
  match value with
  | none => .ok []
  | some ⟨.arr items, _⟩ => .ok items
  | some _ => .error (.typeError (js expression ++ js ".map is not a function"))

/-! ## Metadata -/

section Order

variable {α β : Type}

theorem propertyOrder_map {f : Text × α → Text × β} (hf : ∀ p, (f p).1 = p.1)
    (l : List (Text × α)) : propertyOrder (l.map f) = (propertyOrder l).map f := by
  have hfilter : ∀ test : Text → Bool,
      (l.map f).filter (fun p => test p.1) = (l.filter fun p => test p.1).map f := by
    intro test
    rw [List.filter_map]
    refine congrArg (List.map f) (List.filter_congr fun p _ => ?_)
    rw [Function.comp_apply, hf]
  rw [propertyOrder, propertyOrder, List.map_append, hfilter fun n => (arrayIndex? n).isSome,
    hfilter fun n => !(arrayIndex? n).isSome]
  congr 1
  exact (List.map_insertionSort _ _ f _ fun p _ q _ => by rw [hf, hf]).symm

theorem propertyOrder_append {indices others : List (Text × α)}
    (hindex : ∀ p ∈ indices, (arrayIndex? p.1).isSome = true)
    (hsorted : indices.Pairwise fun p q => digitsValue p.1 ≤ digitsValue q.1)
    (hother : ∀ p ∈ others, (arrayIndex? p.1).isSome = false) :
    propertyOrder (indices ++ others) = indices ++ others := by
  rw [propertyOrder, List.filter_append, List.filter_append, List.filter_eq_self.mpr hindex,
    List.filter_eq_nil_iff.mpr fun p hp => by rw [hother p hp]; decide,
    List.filter_eq_nil_iff.mpr fun p hp => by rw [hindex p hp]; decide,
    List.filter_eq_self.mpr fun p hp => by rw [hother p hp]; rfl, List.append_nil, List.nil_append,
    hsorted.insertionSort_eq]

theorem propertyOrder_propertyOrder (l : List (Text × α)) :
    propertyOrder (propertyOrder l) = propertyOrder l :=
  propertyOrder_append
    (fun _ hp => (List.mem_filter.mp ((List.perm_insertionSort _ _).mem_iff.mp hp)).2)
    (List.pairwise_insertionSort _ _) (fun _ hp => by simpa using (List.mem_filter.mp hp).2)

end Order

/-- Texts under safe names, in the order an engine lists them. -/
structure Metadata where
  entries : List (Text × Text)
  safe : ∀ entry ∈ entries, isSafeId entry.1 = true
  listed : propertyOrder entries = entries
deriving DecidableEq

def metadataEntry (label : Text) (entry : Text × Value) : Except Failure (Text × Text) := do
  let _ ← safeId (given (some (.str entry.1))) (label ++ js " key")
  match entry.2 with
  | .str _ | .num _ | .bool _ => .ok (entry.1, entry.2.toText)
  | _ => .error (refuse (label ++ js " '" ++ entry.1
      ++ js "' must be text, a number, or a boolean."))

theorem safeId_eq_ok_iff {value : Option Given} {label : Text} {id : SafeId} :
    safeId value label = .ok id ↔ value = some (.ofText id.text) := by
  unfold safeId
  split
  · next t ht =>
      split_ifs with hsafe
      · rw [Except.ok.injEq, Option.some.injEq, Given.ofText, Given.mk.injEq, Value.str.injEq]
        exact ⟨fun h => h ▸ rfl, fun h => by cases id; cases h; rfl⟩
      · refine iff_of_false nofun fun h => hsafe ?_
        rw [Option.some.injEq, Given.ofText, Given.mk.injEq, Value.str.injEq] at h
        rw [h]
        exact id.safe
  · next hnot => exact iff_of_false nofun fun h => hnot _ _ h

@[simp] theorem safeId_ofText (id : SafeId) (label : Text) :
    safeId (some (.ofText id.text)) label = .ok id := safeId_eq_ok_iff.mpr rfl

theorem metadataEntry_eq {label : Text} {entry : Text × Value} {read : Text × Text}
    (h : metadataEntry label entry = .ok read) :
    read = (entry.1, entry.2.toText) ∧ isSafeId entry.1 = true := by
  obtain ⟨id, hid, h⟩ := bind_eq_ok_iff.mp h
  have hname : entry.1 = id.text := by simpa [Given.ofText] using safeId_eq_ok_iff.mp hid
  refine ⟨?_, by rw [hname]; exact id.safe⟩
  split at h
  iterate 3 exact (Except.ok.inj h).symm
  cases h

theorem eq_map_of_sequence {ε α β : Type} {f : β → Except ε α} {g : β → α}
    (hf : ∀ b a, f b = .ok a → a = g b) {l : List β} {as : List α}
    (h : sequence (l.map f) = .ok as) : as = l.map g := by
  have heq := sequence_eq_ok h
  clear h
  induction l generalizing as with
  | nil => exact List.map_eq_nil_iff.mp heq.symm
  | cons b l ih =>
      cases as with
      | nil => cases heq
      | cons a as =>
          obtain ⟨hhead, htail⟩ := List.cons.inj heq
          rw [List.map_cons, hf b a hhead, ih htail]

/-- The entries are read in the order of their names, and so left in it. -/
theorem metadata_listed {label : Text} {members : List (Text × Value)} {entries : List (Text × Text)}
    (h : sequence ((propertyOrder members).map (metadataEntry label)) = .ok entries) :
    propertyOrder entries = entries := by
  rw [eq_map_of_sequence (fun _ _ hread => (metadataEntry_eq hread).1) h,
    propertyOrder_map (f := fun p : Text × Value => (p.1, p.2.toText)) fun _ => rfl,
    propertyOrder_propertyOrder]

theorem metadata_safe {label : Text} {members : List (Text × Value)} {entries : List (Text × Text)}
    (h : sequence ((propertyOrder members).map (metadataEntry label)) = .ok entries) :
    ∀ entry ∈ entries, isSafeId entry.1 = true := by
  intro entry hentry
  obtain ⟨p, -, hread⟩ := (mem_of_sequence h).mp hentry
  obtain ⟨rfl, hsafe⟩ := metadataEntry_eq hread
  exact hsafe

def metadataMap (value : Option Given) (label : Text) : Except Failure Metadata :=
  match value with
  | none => .ok ⟨[], nofun, rfl⟩
  | some ⟨.obj members, _⟩ =>
      match h : sequence ((propertyOrder members).map (metadataEntry label)) with
      | .error e => .error e
      | .ok entries => .ok ⟨entries, metadata_safe h, metadata_listed h⟩
  | some _ => .error (refuse (label ++ js " must be a key/value object."))

/-! ## The records -/

structure Task where
  id : SafeId
  title : Line
  description : Text
  acceptanceCriteria : List Line
  metadata : Metadata
  jiraKey : Option Given
  jiraIssueId : Option Text
deriving DecidableEq

structure Dependency where
  story : SafeId
  requiredPhase : Given
deriving DecidableEq

structure Contract where
  id : SafeId
  version : Option Text
  sha256 : Option Given
deriving DecidableEq

inductive ParentMode where
  | managed | external
deriving DecidableEq

inductive Version where
  | one | two
deriving DecidableEq

/-- A Story.  Its `planId` is its `id`. -/
structure Story where
  id : SafeId
  workId : SafeId
  title : Given
  description : Text
  specification : Text
  requirements : List Line
  acceptanceCriteria : List Line
  epicId : SafeId
  repository : SafeId
  blocking : Bool
  suggestedWorkType : Given
  dependsOn : List Dependency
  consumesContracts : List Contract
  jiraKey : Option Given
  initialJiraKey : Option Given
  jiraAliases : List Line
  jiraIssueId : Option Text
  epicKey : Option Given
  estimate : Option Given
  idAuthority : Option Given
  parentMode : ParentMode
  metadata : Metadata
  tasks : List Task
deriving DecidableEq

/-- An Epic.  Its `planId` is its `id`. -/
structure Epic where
  id : SafeId
  title : Given
  description : Text
  acceptanceCriteria : List Line
  jiraKey : Option Given
  jiraIssueId : Option Text
  stories : List Story
deriving DecidableEq

structure Breakdown where
  version : Version
  initiativeId : Option Given
  epics : List Epic
deriving DecidableEq

/-- The Stories of all Epics, in the order they are written. -/
def Breakdown.stories (breakdown : Breakdown) : List Story := breakdown.epics.flatMap Epic.stories

def Story.dependencies (story : Story) : List Text := story.dependsOn.map fun d => d.story.text

/-! ## Reading a Story -/

def quoted (t : Text) : Text := js "'" ++ t ++ js "'"

/-- `String(index + 1).padStart(3, '0')`. -/
def padded (index : Nat) : Text :=
  let digits := natText (index + 1)
  List.replicate (3 - digits.length) 0x30 ++ digits

theorem safe_ne_nil {id : Text} (h : isSafeId id = true) : id ≠ [] := by
  rintro rfl
  cases h

theorem isTrimmed_of_safe {u : UInt16} (h : isSafeUnit u = true) : isTrimmed u = false := by
  refine isTrimmed_of_printable ?_ ?_ <;>
    · simp only [isSafeUnit, Bool.or_eq_true, Bool.and_eq_true, decide_eq_true_eq,
        ← UInt16.toNat_inj] at h
      simp at h
      omega

theorem trim_safe {id : Text} (h : isSafeId id = true) : trim id = id := by
  refine trim_of_forall fun u hu => isTrimmed_of_safe ?_
  cases id with
  | nil => cases hu
  | cons v rest =>
      simp only [isSafeId, Bool.and_eq_true, List.all_eq_true] at h
      rcases List.mem_cons.mp hu with rfl | hu
      · exact h.1.1.1
      · exact h.2 u hu

/-- `String(title ?? id).trim() || id`. -/
def taskTitle (title : Option Given) (id : SafeId) : Line :=
  let text := trim ((text? title).getD id.text)
  if h : text = [] then ⟨id.text, safe_ne_nil id.safe, trim_safe id.safe⟩
  else ⟨text, h, trim_trim _⟩

def normalizeTask (storyId : Text) (index : Nat) (raw : Value) : Except Failure Task := do
  let story := js "Story " ++ quoted storyId
  plainObject raw (story ++ js " task " ++ natText (index + 1) ++ js " must be an object.")
  let id ← safeId ((given? "id" raw).or (given (some (.str (js "TASK-" ++ padded index)))))
    (story ++ js " task ID")
  let task := story ++ js " task " ++ quoted id.text
  let description ← description (given? "description" raw) (task ++ js " description must be text.")
  let acceptanceCriteria ← textList (given? "acceptanceCriteria" raw)
    (task ++ js " acceptanceCriteria")
  let metadata ← metadataMap (given? "metadata" raw) (task ++ js " metadata")
  .ok
    { id
      title := taskTitle (given? "title" raw) id
      description, acceptanceCriteria, metadata
      jiraKey := given? "jiraKey" raw
      jiraIssueId := text? (given? "jiraIssueId" raw) }

/-- A reference that may be written as its name alone. -/
def reference (name : String) (raw : Value) : Value :=
  match raw with
  | .str _ => .obj [(js name, raw)]
  | _ => raw

def normalizeDependency (storyId : Text) (raw : Value) : Except Failure Dependency := do
  let dependency := reference "story" raw
  failIf (isObject dependency = false)
    (refuse (js "Story " ++ quoted storyId ++ js " dependency is invalid."))
  let story ← safeId (given? "story" dependency) (js "Story " ++ quoted storyId ++ js " dependency")
  .ok ⟨story, (given? "requiredPhase" dependency).getD (.ofText (js "implementation-spec"))⟩

def normalizeContract (storyId : Text) (raw : Value) : Except Failure Contract := do
  let contract := reference "id" raw
  failIf (isObject contract = false)
    (refuse (js "Story " ++ quoted storyId ++ js " contract reference is invalid."))
  let id ← safeId (given? "id" contract) (js "Story " ++ quoted storyId ++ js " contract ID")
  .ok ⟨id, text? (given? "version" contract), given? "sha256" contract⟩

def parentMode (storyId : Text) (value : Option Given) : Except Failure ParentMode :=
  let mode := (value.getD (.ofText (js "managed"))).value
  if mode = .str (js "managed") then .ok .managed
  else if mode = .str (js "external") then .ok .external
  else .error (refuse (js "Story " ++ quoted storyId
    ++ js " parentMode must be managed or external."))

/-- `/^TAG-\d{3,}$/`, with the tag and its hyphen given. -/
def isTraced (tag t : Text) : Bool :=
  tag.isPrefixOf t && decide (3 ≤ (t.drop tag.length).length) && (t.drop tag.length).all isDigit

/-- What is said of a Story when it is read. -/
def checkStory (version : Version) (story : Story) : Except Failure Unit := do
  let name := js "Story " ++ quoted story.id.text
  failIf (¬ (story.tasks.map fun task => task.id.text).Nodup)
    (refuse (name ++ js " task IDs must be unique."))
  if version = .two then do
    let _ ← sequence (story.requirements.map fun requirement =>
      failIf (isTraced (js "REQ-") requirement.text = false)
        (refuse (name ++ js " requirement " ++ quoted requirement.text
          ++ js " must use REQ-nnn traceability.")))
    let _ ← sequence (story.acceptanceCriteria.map fun criterion =>
      failIf (isTraced (js "AC-") criterion.text = false)
        (refuse (name ++ js " acceptance criterion " ++ quoted criterion.text
          ++ js " must use AC-nnn traceability.")))
    .ok ()
  else .ok ()

/-- A Story of an Epic; `knows` are the repositories of the portfolio. -/
def readStory (knows : Text → Bool) (version : Version) (epicId : SafeId) (epicJiraKey : Option Given)
    (index : Nat) (raw : Value) : Except Failure Story := do
  let epic := js "Epic " ++ quoted epicId.text
  failIf (isObject raw = false)
    (refuse (epic ++ js " story " ++ natText (index + 1) ++ js " must be an object."))
  let id ← safeId ((given? "planId" raw).or (given? "id" raw)) (epic ++ js " story ID")
  let name := js "Story " ++ quoted id.text
  let repository ← safeId (given? "repository" raw) (name ++ js " repository")
  let description ← description (given? "description" raw) (name ++ js " description must be text.")
  failIf (knows repository.text = false)
    (refuse (name ++ js " references unknown repository " ++ quoted repository.text ++ js "."))
  let jiraKey := given? "jiraKey" raw
  let workId ← safeId
    (if version = .two then ((given? "workId" raw).or jiraKey).or (some (.ofText id.text))
      else some (.ofText id.text))
    (name ++ js " Work ID")
  let requirements ← textList (given? "requirements" raw) (name ++ js " requirements")
  let acceptanceCriteria ← textList (given? "acceptanceCriteria" raw)
    (name ++ js " acceptanceCriteria")
  let dependencies ← items (given? "dependsOn" raw) "(rawStory.dependsOn ?? [])"
  let dependsOn ← sequence (dependencies.map (normalizeDependency id.text))
  let contracts ← items (given? "consumesContracts" raw) "(rawStory.consumesContracts ?? [])"
  let consumesContracts ← sequence (contracts.map (normalizeContract id.text))
  let jiraAliases ← textList (given? "jiraAliases" raw) (name ++ js " jiraAliases")
  let metadata ← metadataMap (given? "metadata" raw) (name ++ js " metadata")
  let rawTasks ← items (given? "tasks" raw) "(rawStory.tasks ?? [])"
  let tasks ← sequence (rawTasks.mapIdx (normalizeTask id.text))
  let parentMode ← parentMode id.text (given? "parentMode" raw)
  .ok
    { id, workId
      title := (given? "title" raw).getD (.ofText id.text)
      description
      specification := (text? (given? "specification" raw)).getD []
      requirements, acceptanceCriteria, epicId, repository
      blocking := (given? "blocking" raw).all fun v => v.value ≠ .bool false
      suggestedWorkType := (given? "suggestedWorkType" raw).getD (.ofText (js "feature"))
      dependsOn, consumesContracts, jiraKey
      initialJiraKey := (given? "initialJiraKey" raw).or jiraKey
      jiraAliases
      jiraIssueId := text? (given? "jiraIssueId" raw)
      epicKey := (given? "epicKey" raw).or epicJiraKey
      estimate := given? "estimate" raw
      idAuthority := given? "idAuthority" raw
      parentMode, metadata, tasks }

def normalizeStory (knows : Text → Bool) (version : Version) (epicId : SafeId)
    (epicJiraKey : Option Given) (index : Nat) (raw : Value) : Except Failure Story := do
  let story ← readStory knows version epicId epicJiraKey index raw
  checkStory version story
  .ok story

/-! ## Reading a breakdown -/

def normalizeEpic (knows : Text → Bool) (version : Version) (index : Nat) (raw : Value) :
    Except Failure Epic := do
  let label := js "Epic " ++ natText (index + 1)
  failIf (isObject raw = false) (refuse (label ++ js " must be an object."))
  let id ← safeId ((given? "planId" raw).or (given? "id" raw)) (label ++ js " ID")
  let name := js "Epic " ++ quoted id.text
  let rawStories ← array (given? "stories" raw) (name ++ js " stories must be an array.")
  let description ← description (given? "description" raw) (name ++ js " description must be text.")
  let acceptanceCriteria ← textList (given? "acceptanceCriteria" raw)
    (name ++ js " acceptanceCriteria")
  let jiraKey := given? "jiraKey" raw
  let stories ← sequence (rawStories.mapIdx (normalizeStory knows version id jiraKey))
  .ok
    { id
      title := (given? "title" raw).getD (.ofText id.text)
      description, acceptanceCriteria, jiraKey
      jiraIssueId := text? (given? "jiraIssueId" raw)
      stories }

/-- The dependencies of the Story of a name. -/
def dependenciesOf (stories : List Story) (id : Text) : List Text :=
  ((stories.find? fun story => story.id.text = id).map Story.dependencies).getD []

def checkDependencies (known : List Text) (story : Story) : Except Failure Unit := do
  let name := js "Story " ++ quoted story.id.text
  failIf (¬ story.dependencies.Nodup) (refuse (name ++ js " contains duplicate dependencies."))
  failIf (story.id.text ∈ story.dependencies) (refuse (name ++ js " cannot depend on itself."))
  let _ ← sequence (story.dependencies.map fun dependency => failIf (dependency ∉ known)
    (refuse (name ++ js " depends on unknown story " ++ quoted dependency ++ js ".")))
  .ok ()

/-- The search for a cycle.  The names that are being visited are those of the trail. -/
def checkCycles (stories : List Story) : Except Failure Unit :=
  let storyIds := stories.map fun story => story.id.text
  match storyIds.foldlM (DepthFirst.descend (dependenciesOf stories) (storyIds.length + 1) []) [] with
  | .ok _ => .ok ()
  | .error trail => .error (refuse (js "Initiative story dependency cycle: "
      ++ joinWith (js " -> ") trail ++ js "."))

def checkStories (stories : List Story) : Except Failure Unit := do
  let storyIds := stories.map fun story => story.id.text
  failIf (¬ storyIds.Nodup)
    (refuse (js "Initiative breakdown story IDs must be unique across every epic."))
  let _ ← sequence (stories.map (checkDependencies storyIds))
  checkCycles stories

def breakdownVersion (value : Option Given) : Except Failure Version :=
  if value.map Given.value = some (.num (Number.ofNat 1)) then .ok .one
  else if value.map Given.value = some (.num (Number.ofNat 2)) then .ok .two
  else .error (refuse (js "Initiative breakdown version must be 1 or 2."))

def validateInitiativeBreakdown (knows : Text → Bool) (raw : Value) : Except Failure Breakdown := do
  plainObject raw (js "Initiative breakdown must be an object.")
  let version ← breakdownVersion (given? "version" raw)
  let rawEpics ← array (given? "epics" raw) (js "Initiative breakdown epics must be an array.")
  let epics ← sequence (rawEpics.mapIdx (normalizeEpic knows version))
  let breakdown : Breakdown := { version, initiativeId := given? "initiativeId" raw, epics }
  checkStories breakdown.stories
  .ok breakdown

/-! ## What is accepted -/

theorem find?_story {stories : List Story} (hnodup : (stories.map fun s => s.id.text).Nodup)
    {story : Story} (h : story ∈ stories) :
    stories.find? (fun s => s.id.text = story.id.text) = some story := by
  obtain ⟨found, hfound⟩ := Option.isSome_iff_exists.mp
    (List.find?_isSome.mpr ⟨story, h, decide_eq_true rfl⟩ :
      (stories.find? fun s => s.id.text = story.id.text).isSome = true)
  rw [hfound, List.inj_on_of_nodup_map hnodup (List.mem_of_find?_eq_some hfound) h
    (of_decide_eq_true (List.find?_some hfound :))]

/-- What an accepted breakdown says of its dependencies. -/
structure Planned (stories : List Story) : Prop where
  ids_nodup : (stories.map fun s => s.id.text).Nodup
  nodup : ∀ story ∈ stories, story.dependencies.Nodup
  known : ∀ story ∈ stories, story.dependencies ⊆ stories.map fun s => s.id.text
  grounded : ∃ l, DepthFirst.Grounded (dependenciesOf stories) l
    ∧ (stories.map fun s => s.id.text) ⊆ l ∧ l ⊆ stories.map fun s => s.id.text

theorem dependenciesOf_eq {stories : List Story} (hnodup : (stories.map fun s => s.id.text).Nodup)
    {story : Story} (h : story ∈ stories) :
    dependenciesOf stories story.id.text = story.dependencies := by
  rw [dependenciesOf, find?_story hnodup h]
  rfl

theorem checkDependencies_ok {known : List Text} {story : Story}
    (h : checkDependencies known story = .ok ()) :
    story.dependencies.Nodup ∧ story.dependencies ⊆ known := by
  obtain ⟨_, hnodup, h⟩ := bind_eq_ok_iff.mp h
  obtain ⟨_, -, h⟩ := bind_eq_ok_iff.mp h
  obtain ⟨_, hknown, -⟩ := bind_eq_ok_iff.mp h
  refine ⟨by simpa using hnodup, fun dependency hmem => ?_⟩
  obtain ⟨u, hu⟩ := exists_sequence_iff.mp ⟨_, hknown⟩ dependency hmem
  simpa using hu

/-- **The dependencies of accepted Stories are grounded.** -/
theorem planned_of_checkStories {stories : List Story} (h : checkStories stories = .ok ()) :
    Planned stories := by
  obtain ⟨_, hids, h⟩ := bind_eq_ok_iff.mp h
  obtain ⟨_, hdeps, hcycle⟩ := bind_eq_ok_iff.mp h
  have hnodup : (stories.map fun s => s.id.text).Nodup := by simpa using hids
  have hstory : ∀ story ∈ stories, story.dependencies.Nodup
      ∧ story.dependencies ⊆ stories.map fun s => s.id.text := by
    intro story hmem
    obtain ⟨u, hu⟩ := exists_sequence_iff.mp ⟨_, hdeps⟩ story hmem
    exact checkDependencies_ok hu
  refine ⟨hnodup, fun s hs => (hstory s hs).1, fun s hs => (hstory s hs).2, ?_⟩
  have hclosed : ∀ a ∈ stories.map fun s => s.id.text,
      dependenciesOf stories a ⊆ stories.map fun s => s.id.text := by
    intro a ha
    obtain ⟨story, hmem, rfl⟩ := List.mem_map.mp ha
    rw [dependenciesOf_eq hnodup hmem]
    exact (hstory story hmem).2
  unfold checkCycles at hcycle
  dsimp only at hcycle
  split at hcycle
  · next visited hvisited =>
      obtain ⟨hd, hall⟩ := DepthFirst.foldlM_descended (DepthFirst.descend_descended hclosed)
        (List.Subset.refl _) .nil (List.nil_subset _) hvisited
      exact ⟨visited, hd.grounded, hall, hd.inside⟩
  · cases hcycle

theorem validate_ok {knows : Text → Bool} {raw : Value} {breakdown : Breakdown}
    (h : validateInitiativeBreakdown knows raw = .ok breakdown) :
    checkStories breakdown.stories = .ok () ∧ ∃ rawEpics : List Value,
      sequence (rawEpics.mapIdx (normalizeEpic knows breakdown.version)) = .ok breakdown.epics := by
  obtain ⟨_, -, h⟩ := bind_eq_ok_iff.mp h
  obtain ⟨version, -, h⟩ := bind_eq_ok_iff.mp h
  obtain ⟨rawEpics, -, h⟩ := bind_eq_ok_iff.mp h
  obtain ⟨epics, hepics, h⟩ := bind_eq_ok_iff.mp h
  obtain ⟨_, hstories, h⟩ := bind_eq_ok_iff.mp h
  obtain rfl := Except.ok.inj h
  exact ⟨hstories, rawEpics, hepics⟩

end Breakdowns

end SingularityFlow
