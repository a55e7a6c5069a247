/-
# Where the Stories are, from the ledger

`storyPointersFromLedger` reads the entry files of a state branch, follows the
parent hashes from the head, and keeps for each Story the location that it meets
first.  The files come from a remote, so nothing about them is taken for granted:
each must be named by the digest of what it holds, the chain must neither break
nor come back, and it must be as long as the head says.

`storyPointersFromLedger_ok_iff` says exactly which ledgers are read, and what is
read from them: one chain, and what a fold over it keeps.  That the fold keeps
the entry nearest the head, and that the files count only as the entries of the
chain, is said of the chain alone.
-/
import SingularityFlow.Git.Objects
import SingularityFlow.Ledger.Records
import SingularityFlow.Lib.Collections
import Mathlib.Data.List.Sort

namespace SingularityFlow

open Ecma Ecma.Value

namespace Ledger

open Git

/-! ## Reading an entry -/

/-- A record of the family, once it is known to be an object. -/
def versioned (members : List (Text × Value)) : Except Failure Value :=
  match lookup (js "schemaVersion") members with
  | some (.num version) =>
      match version.integer? with
      | some (.ofNat (n + 1)) =>
          if currentSchemaVersion < n + 1 then
            .error (recordFailure (js "Durable record 'ledger-entry' is stored at schema version "
              ++ natText (n + 1) ++ js " (v" ++ natText (n + 1)
              ++ js "), above this build's readable range v1–v1; it was written by a newer sflow — upgrade to read it.")
              "SCHEMA_VERSION_FUTURE")
          else .ok (.obj members)
      | _ => .error (recordFailure
          (js "Durable record 'ledger-entry' has no valid schemaVersion.") "SCHEMA_VERSION_MISSING")
  | _ => .error (recordFailure
      (js "Durable record 'ledger-entry' has no valid schemaVersion.") "SCHEMA_VERSION_MISSING")

/-- `readRecord('ledger-entry', raw).record`, of a value; a string is read as the
text of a record. -/
def recordOf : Value → Except Failure Value
  | .obj members => versioned members
  | .str text => readRecord text
  | _ => .error (recordFailure (js "Durable record bytes must be UTF-8 JSON.") "SCHEMA_RECORD_INVALID")

/-- The refusals of the index. -/
def indexInvalid (message : Text) : Failure := recordFailure message "SESSION_STATE_INDEX_INVALID"

def storyStateIndexLimit : Nat := 100000

/-- `text(value)` -/
def textOf : Option Value → Option Text
  | some (.str t) => if t = [] then none else some t
  | _ => none

/-- `/^(?:[a-f0-9]{40}|[a-f0-9]{64})$/u.test(commit ?? '')` -/
def isCommit (commit : Option Value) : Bool := isObjectId (orElse commit (.str [])).toText

/-! ## The Story of an entry -/

/-- The summary that a publication recorded. -/
structure StorySummary where
  id : Text
  branch : Text
  title : Text
  createdAt : Option Text
  status : Text
  phase : Option Text
  progress : Value
  /-- The short form of the commit. -/
  commit : Value
  commitOid : Value
  aliases : List Value
  workType : Option Text
  updatedAt : Option Text

structure StoryPointer where
  id : Text
  branch : Text
  commitOid : Value
  entryHash : Text
  story : Option StorySummary

/-- `commit.slice(0, 8)`; a commit that is no string is an array. -/
def shortCommit : Value → Value
  | .str t => .str (t.take 8)
  | .arr items => .arr (items.take 8)
  | v => v

/-- `subject.aliases`, where they are texts. -/
def aliasesOf (subject : Value) : List Value :=
  match subject.member? (js "aliases") with
  | some (.arr items) => items.filter fun item => (textOf (some item)).isSome
  | _ => []

/-- A summary is used only where its canonical branch is the one of the ledger. -/
def storySummaryFromSubject (entry : Value) (id branch : Text) (commit : Value) :
    Option StorySummary :=
  match entry.member? (js "subject") with
  | some (.obj members) =>
      let subject := Value.obj members
      match textOf (subject.member? (js "title")), textOf (subject.member? (js "status")),
          subject.member? (js "progress") with
      | some title, some status, some (.obj progress) =>
          if (textOf (subject.member? (js "canonicalBranch"))).getD branch ≠ branch then none
          else some
            { id, branch, title
              createdAt := textOf (subject.member? (js "createdAt"))
              status
              phase := textOf (subject.member? (js "currentPhase"))
              progress := .obj progress
              commit := shortCommit commit
              commitOid := commit
              aliases := aliasesOf subject
              workType := textOf (subject.member? (js "workType"))
              updatedAt := (textOf (subject.member? (js "updatedAt"))).or
                (textOf (entry.member? (js "createdAt"))) }
      | _, _, _ => none
  | _ => none

/-- `entry.subject?.kind ?? entry.payload?.lifecycleEvent?.subject?.kind` -/
def kindOf (entry : Value) : Option Value :=
  match optionalProperty (entry.member? (js "subject")) (js "kind") with
  | none | some .null =>
      optionalProperty (optionalProperty (optionalProperty (entry.member? (js "payload"))
        (js "lifecycleEvent")) (js "subject")) (js "kind")
  | kind => kind

def workIdOf (entry : Value) : Option Value :=
  optionalProperty (entry.member? (js "subject")) (js "workId")

def branchOf (entry : Value) : Option Value :=
  optionalProperty (entry.member? (js "subject")) (js "branch")

def publishedCommitOf (entry : Value) : Option Value :=
  optionalProperty (entry.member? (js "transport")) (js "publishedCommit")

/-- An entry that says it is a Story's, and not where the Story is. -/
def misplaced (entry : Value) : Bool :=
  kindOf entry = some (.str (js "story")) &&
    ((textOf (workIdOf entry)).isNone || (textOf (branchOf entry)).isNone
      || !isCommit (publishedCommitOf entry))

/-- The location that an entry records; an entry without a kind may be that of a Story. -/
def pointer? (hash : Text) (entry : Value) : Option StoryPointer :=
  match workIdOf entry, branchOf entry, publishedCommitOf entry with
  | some (.str id), some (.str branch), some commit =>
      if (!(kindOf entry).any Value.truthy || kindOf entry = some (.str (js "story")))
          && isCommit (some commit) then
        some { id, branch, commitOid := commit, entryHash := hash
               story := storySummaryFromSubject entry id branch commit }
      else none
  | _, _, _ => none

/-! ## Reading the index -/

/-- The loop over the entry files. -/
def readIndex : List (Text × Text) → List (Text × Value) → Except Failure (List (Text × Value))
  | [], entries => .ok entries
  | (file, contents) :: rest, entries =>
      if !isJsonFile file then readIndex rest entries
      else
        match parse contents with
        | none => .error (indexInvalid
            (js "The state Story index contains unreadable ledger metadata."))
        | some raw =>
            let hash := jsonBasename file
            if hash ≠ entryHash raw ∨ hash ∈ entries.map Prod.fst then
              .error (indexInvalid
                (js "The state Story index contains an invalid ledger entry digest."))
            else
              match recordOf raw with
              | .error e => .error e
              | .ok entry => readIndex rest (mapSet entries hash entry)

/-- `if (!latest.has(id)) latest.set(id, …)` -/
def keepFirst (latest : List StoryPointer) (entry : Text × Value) : List StoryPointer :=
  match pointer? entry.1 entry.2 with
  | some item => if latest.any (·.id = item.id) then latest else latest ++ [item]
  | none => latest

/-- The walk from the head, while `room` more entries may be visited. -/
def follow (entries : List (Text × Value)) :
    Nat → Option Value → List Text → List StoryPointer →
      Except Failure (List Text × List StoryPointer)
  | room, cursor, visited, latest =>
      if !cursor.any Value.truthy then .ok (visited, latest)
      else
        match room, cursor with
        | room + 1, some (.str hash) =>
            if hash ∈ visited then
              .error (indexInvalid
                (js "The state Story index contains a cycle or exceeds its bound."))
            else
              match mapGet entries hash with
              | none => .error (indexInvalid (js "The reachable state Story index is incomplete. "
                  ++ js "Refresh the state branch before retrying."))
              | some entry =>
                  if misplaced entry then
                    .error (indexInvalid
                      (js "A Story location in the state index is incomplete or invalid."))
                  else
                    follow entries room (entry.member? (js "parentEntryHash")) (hash :: visited)
                      (keepFirst latest (hash, entry))
        | 0, _ => .error (indexInvalid
            (js "The state Story index contains a cycle or exceeds its bound."))
        | _ + 1, _ => .error (indexInvalid (js "The reachable state Story index is incomplete. "
            ++ js "Refresh the state branch before retrying."))

/-- `head.sequence`, where it is a safe integer that is not negative. -/
def sequenceOf (head : Value) : Option Nat :=
  match head.member? (js "sequence") with
  | some (.num x) => x.safeSize?
  | _ => none

/-- `head.entryHash` is a hash, or nothing in an empty ledger. -/
def headBound (head : Value) (sequence : Nat) : Bool :=
  if sequence = 0 then
    match head.member? (js "entryHash") with
    | none | some .null => true
    | _ => false
  else
    let hash := (orElse (head.member? (js "entryHash")) (.str [])).toText
    hash.length = 64 && hash.all isLowerHex

section Pointers

variable (localeLe : Text → Text → Bool)

/-- `localeLe` is the order of `localeCompare`. -/
def storyPointersFromLedger (head : Value) (files : List (Text × Text)) :
    Except Failure (List StoryPointer) :=
  match sequenceOf head with
  | none => .error (indexInvalid
      (js "The state Story index has an invalid or oversized ledger sequence."))
  | some sequence => do
      failIf (storyStateIndexLimit < sequence) (indexInvalid
        (js "The state Story index has an invalid or oversized ledger sequence."))
      failIf (headBound head sequence = false) (indexInvalid
        (js "The state Story index has an invalid ledger head binding."))
      let entries ← readIndex files []
      let (visited, latest) ← follow entries storyStateIndexLimit (head.member? (js "entryHash")) [] []
      failIf (visited.length ≠ sequence) (indexInvalid
        (js "The state Story index does not match its reachable ledger sequence."))
      return latest.insertionSort fun a b => localeLe a.id b.id = true

end Pointers

/-! ## The ledgers that are read -/

/-- The entries that parent hashes lead to from a cursor, to the last. -/
inductive PointerChain (stored : Text → Value → Prop) : Option Value → List (Text × Value) → Prop
  | ends {cursor : Option Value} : cursor.any Value.truthy = false → PointerChain stored cursor []
  | entry {hash : Text} {entry : Value} {rest : List (Text × Value)} : hash ≠ [] →
      stored hash entry → PointerChain stored (entry.member? (js "parentEntryHash")) rest →
      PointerChain stored (some (.str hash)) ((hash, entry) :: rest)

/-- A file is named by the digest of what it holds, which is an entry. -/
def Filed (file : Text × Text) (entry : Value) : Prop :=
  ∃ raw, parse file.2 = some raw ∧ jsonBasename file.1 = entryHash raw ∧ recordOf raw = .ok entry

/-- A file holds the entry of this hash. -/
def Indexed (files : List (Text × Text)) (hash : Text) (entry : Value) : Prop :=
  ∃ file ∈ files, isJsonFile file.1 = true ∧ jsonBasename file.1 = hash ∧ Filed file entry

/-- What a ledger must be for the Stories to be read from it, and the chain
that they are read from. -/
structure Accepted (head : Value) (files : List (Text × Text)) (chain : List (Text × Value)) :
    Prop where
  sequence : sequenceOf head = some chain.length
  bounded : chain.length ≤ storyStateIndexLimit
  binding : headBound head chain.length = true
  /-- Every file is named by its digest, also outside of the chain. -/
  filed : ∀ file ∈ files, isJsonFile file.1 = true → ∃ entry, Filed file entry
  distinct : ((files.filter (isJsonFile ·.1)).map (jsonBasename ·.1)).Nodup
  linked : PointerChain (Indexed files) (head.member? (js "entryHash")) chain
  acyclic : (chain.map Prod.fst).Nodup
  located : ∀ entry ∈ chain, misplaced entry.2 = false

/-- The items are the latest locations of the Stories of a chain, whose entries
are listed from the head. -/
structure Latest (chain : List (Text × Value)) (items : List StoryPointer) : Prop where
  distinct : (items.map StoryPointer.id).Nodup
  complete : ∀ entry ∈ chain, ∀ item, pointer? entry.1 entry.2 = some item →
    ∃ found ∈ items, found.id = item.id
  nearest : ∀ item ∈ items, ∃ newer entry older, chain = newer ++ entry :: older ∧
    pointer? entry.1 entry.2 = some item ∧
    ∀ other ∈ newer, ∀ item', pointer? other.1 other.2 = some item' → item'.id ≠ item.id

/-! ## The entry files -/

theorem filed_unique {file : Text × Text} {entry entry' : Value} (h : Filed file entry)
    (h' : Filed file entry') : entry = entry' := by
  obtain ⟨raw, hparse, -, hrecord⟩ := h
  obtain ⟨raw', hparse', -, hrecord'⟩ := h'
  obtain rfl := Option.some.inj (hparse.symm.trans hparse')
  exact Except.ok.inj (hrecord.symm.trans hrecord')

/-- The entries that were read from files, in their order. -/
def ReadFrom : List (Text × Text) → List (Text × Value) → Prop :=
  List.Forall₂ fun file entry => jsonBasename file.1 = entry.1 ∧ Filed file entry.2

/-- One file of the loop. -/
theorem readIndex_cons {file : Text × Text} (hjson : isJsonFile file.1 = true)
    {files : List (Text × Text)} {entries entries' : List (Text × Value)} :
    readIndex (file :: files) entries = .ok entries' ↔
      ∃ entry, Filed file entry ∧ jsonBasename file.1 ∉ entries.map Prod.fst ∧
        readIndex files (mapSet entries (jsonBasename file.1) entry) = .ok entries' := by
  obtain ⟨file, contents⟩ := file
  rw [readIndex, hjson, Bool.not_true, if_neg Bool.false_ne_true]
  constructor
  · intro h
    split at h
    · cases h
    · next raw hparse =>
      dsimp only at h
      split at h
      · cases h
      · next hgood =>
        rw [not_or, not_not] at hgood
        split at h
        · cases h
        · next entry hrecord => exact ⟨entry, ⟨raw, hparse, hgood.1, hrecord⟩, hgood.2, h⟩
  · rintro ⟨entry, ⟨raw, hparse, hname, hrecord⟩, hnew, h⟩
    dsimp only at hparse hname
    rw [hparse]
    dsimp only
    rw [if_neg (not_or.mpr ⟨not_not.mpr hname, hnew⟩), hrecord]
    exact h

/-- The loop over the files succeeds when each is named by its digest and no two
are named alike. -/
theorem readIndex_ok_iff {files : List (Text × Text)} {entries entries' : List (Text × Value)} :
    readIndex files entries = .ok entries' ↔
      ∃ read, ReadFrom (files.filter (isJsonFile ·.1)) read ∧ (read.map Prod.fst).Nodup ∧
        (∀ hash ∈ read.map Prod.fst, hash ∉ entries.map Prod.fst) ∧
        entries' = read.reverse ++ entries := by
  induction files generalizing entries with
  | nil =>
      rw [readIndex, Except.ok.injEq]
      constructor
      · rintro rfl
        exact ⟨[], .nil, List.nodup_nil, fun _ h => absurd h List.not_mem_nil, rfl⟩
      · rintro ⟨read, hread, -, -, rfl⟩
        obtain rfl := List.forall₂_nil_left_iff.mp hread
        rfl
  | cons file files ih =>
      by_cases hjson : isJsonFile file.1 = true
      · rw [List.filter_cons_of_pos (by exact hjson), readIndex_cons hjson]
        constructor
        · rintro ⟨entry, hfiled, hnew, h⟩
          obtain ⟨read, hread, hnodup, hfresh, rfl⟩ := ih.mp h
          refine ⟨(jsonBasename file.1, entry) :: read, .cons ⟨rfl, hfiled⟩ hread, ?_, ?_, ?_⟩
          · refine List.nodup_cons.mpr ⟨fun hmem => ?_, hnodup⟩
            exact hfresh _ hmem List.mem_cons_self
          · refine List.forall_mem_cons.mpr ⟨hnew, fun hash hmem => ?_⟩
            exact fun hin => hfresh hash hmem (List.mem_cons_of_mem _ hin)
          · rw [mapSet, List.reverse_cons, List.append_assoc, List.singleton_append]
        · rintro ⟨read, hread, hnodup, hfresh, rfl⟩
          obtain ⟨⟨name, entry⟩, rest, ⟨hname, hfiled⟩, hrest, rfl⟩ :=
            List.forall₂_cons_left_iff.mp hread
          dsimp only at hname hfiled
          subst hname
          obtain ⟨hnew, hnodup⟩ := List.nodup_cons.mp hnodup
          refine ⟨entry, hfiled, hfresh _ List.mem_cons_self, ih.mpr ⟨rest, hrest, hnodup, ?_, ?_⟩⟩
          · intro hash hmem
            rw [mapSet, List.map_cons, List.mem_cons, not_or]
            refine ⟨?_, hfresh hash (List.mem_cons_of_mem _ hmem)⟩
            rintro rfl
            exact hnew hmem
          · rw [mapSet, List.reverse_cons, List.append_assoc, List.singleton_append]
      · rw [List.filter_cons_of_neg (by exact hjson), ← ih]
        rw [readIndex, Bool.not_eq_true _ |>.mp hjson, Bool.not_false, if_pos rfl]

section Read

variable {files : List (Text × Text)} {read : List (Text × Value)}

theorem readFrom_names (h : ReadFrom files read) :
    read.map Prod.fst = files.map (jsonBasename ·.1) := by
  unfold ReadFrom at h
  induction h with
  | nil => rfl
  | cons hhead _ ih => rw [List.map_cons, List.map_cons, hhead.1, ih]

theorem exists_readFrom (h : ∀ file ∈ files, ∃ entry, Filed file entry) :
    ∃ read, ReadFrom files read := by
  induction files with
  | nil => exact ⟨[], .nil⟩
  | cons file files ih =>
      obtain ⟨⟨entry, hentry⟩, hfiles⟩ := List.forall_mem_cons.mp h
      obtain ⟨read, hread⟩ := ih hfiles
      exact ⟨(jsonBasename file.1, entry) :: read, .cons ⟨rfl, hentry⟩ hread⟩

theorem exists_filed (h : ReadFrom files read) {file : Text × Text} (hfile : file ∈ files) :
    ∃ entry, Filed file entry := by
  unfold ReadFrom at h
  induction h with
  | nil => cases hfile
  | cons hhead _ ih =>
      rcases List.mem_cons.mp hfile with rfl | hfile
      · exact ⟨_, hhead.2⟩
      · exact ih hfile

/-- What was read are the entries that the files hold. -/
theorem mem_readFrom_iff (h : ReadFrom files read) {hash : Text} {entry : Value} :
    (hash, entry) ∈ read ↔ ∃ file ∈ files, jsonBasename file.1 = hash ∧ Filed file entry := by
  unfold ReadFrom at h
  induction h with
  | nil => simp
  | @cons file first _ _ hhead _ ih =>
      simp only [List.mem_cons, ih, exists_eq_or_imp]
      refine or_congr_left ⟨?_, ?_⟩
      · rintro rfl
        exact hhead
      · rintro ⟨hname, hfiled⟩
        exact Prod.ext (hname.symm.trans hhead.1) (filed_unique hfiled hhead.2)

/-- A map of what was read answers for the files. -/
theorem mapGet_readFrom_iff (h : ReadFrom (files.filter (isJsonFile ·.1)) read)
    (hnodup : (read.map Prod.fst).Nodup) {hash : Text} {entry : Value} :
    mapGet read.reverse hash = some entry ↔ Indexed files hash entry := by
  have hmem : (hash, entry) ∈ read.reverse ↔ Indexed files hash entry := by
    rw [List.mem_reverse, mem_readFrom_iff h]
    simp only [List.mem_filter, and_assoc]
    rfl
  rw [← hmem]
  refine ⟨mem_of_mapGet, mapGet_of_mem ?_⟩
  rw [List.map_reverse, List.nodup_reverse]
  exact hnodup

end Read

/-! ## The chain -/

theorem chain_congr {stored stored' : Text → Value → Prop}
    (h : ∀ hash entry, stored hash entry → stored' hash entry) {cursor : Option Value}
    {chain : List (Text × Value)} (hchain : PointerChain stored cursor chain) :
    PointerChain stored' cursor chain := by
  induction hchain with
  | ends hend => exact .ends hend
  | entry hne hstored _ ih => exact .entry hne (h _ _ hstored) ih

/-- A chain is followed in one way where a hash names one entry. -/
theorem chain_unique {stored : Text → Value → Prop}
    (hfun : ∀ hash entry entry', stored hash entry → stored hash entry' → entry = entry')
    {cursor : Option Value} {chain chain' : List (Text × Value)} (h : PointerChain stored cursor chain)
    (h' : PointerChain stored cursor chain') : chain = chain' := by
  induction h generalizing chain' with
  | ends hend =>
      cases h' with
      | ends _ => rfl
      | entry hne _ _ => exact absurd (of_decide_eq_false hend) (not_not.mpr hne)
  | entry hne hstored _ ih =>
      cases h' with
      | ends hend => exact absurd (of_decide_eq_false hend) (not_not.mpr hne)
      | entry _ hstored' hrest =>
          obtain rfl := hfun _ _ _ hstored hstored'
          rw [ih hrest]

/-- What one step of the walk does when the walk succeeds. -/
theorem follow_cases {entries : List (Text × Value)} {room : Nat} {cursor : Option Value}
    {visited : List Text} {latest : List StoryPointer} {result : List Text × List StoryPointer} :
    follow entries room cursor visited latest = .ok result ↔
      (cursor.any Value.truthy = false ∧ result = (visited, latest)) ∨
      ∃ room' hash entry, room = room' + 1 ∧ cursor = some (.str hash) ∧ hash ≠ [] ∧
        hash ∉ visited ∧ mapGet entries hash = some entry ∧ misplaced entry = false ∧
        follow entries room' (entry.member? (js "parentEntryHash")) (hash :: visited)
          (keepFirst latest (hash, entry)) = .ok result := by
  constructor
  · intro h
    unfold follow at h
    split at h
    · next hend => exact .inl ⟨by simpa using hend, (Except.ok.inj h).symm⟩
    · next htruthy =>
      split at h
      · next room' hash =>
        split at h
        · cases h
        · next hnew =>
          split at h
          · cases h
          · next entry hentry =>
            split at h
            · cases h
            · next hplaced =>
              refine .inr ⟨room', hash, entry, rfl, rfl, ?_, hnew, hentry, ?_, h⟩
              · rintro rfl
                exact htruthy rfl
              · simpa using hplaced
      · cases h
      · cases h
  · rintro (⟨hend, rfl⟩ | ⟨room', hash, entry, rfl, rfl, hne, hnew, hentry, hplaced, h⟩)
    · unfold follow
      rw [if_pos (by rw [hend]; rfl)]
    · unfold follow
      have htruthy : ¬ ((!(some (Value.str hash)).any Value.truthy) = true) := by
        simpa [Value.truthy] using hne
      rw [if_neg htruthy]
      dsimp only
      rw [if_neg hnew, hentry]
      dsimp only
      rw [if_neg (by rw [hplaced]; exact Bool.false_ne_true)]
      exact h

/-- The walk succeeds along a chain of entries that were not visited, that are
not too many, and of which none hides where its Story is. -/
theorem follow_ok_iff {entries : List (Text × Value)} {room : Nat} {cursor : Option Value}
    {visited : List Text} {latest : List StoryPointer} {result : List Text × List StoryPointer} :
    follow entries room cursor visited latest = .ok result ↔
      ∃ chain, PointerChain (fun hash entry => mapGet entries hash = some entry) cursor chain ∧
        chain.length ≤ room ∧ (chain.map Prod.fst).Nodup ∧
        (∀ hash ∈ chain.map Prod.fst, hash ∉ visited) ∧
        (∀ entry ∈ chain, misplaced entry.2 = false) ∧
        result = ((chain.map Prod.fst).reverse ++ visited, chain.foldl keepFirst latest) := by
  induction room generalizing cursor visited latest with
  | zero =>
      rw [follow_cases]
      constructor
      · rintro (⟨hend, rfl⟩ | ⟨room', hash, entry, hroom, -⟩)
        · exact ⟨[], .ends hend, le_rfl, List.nodup_nil, fun _ h => absurd h List.not_mem_nil,
            fun _ h => absurd h List.not_mem_nil, rfl⟩
        · cases hroom
      · rintro ⟨chain, hchain, hroom, -, -, -, rfl⟩
        obtain rfl := List.eq_nil_of_length_eq_zero (Nat.le_zero.mp hroom)
        cases hchain with
        | ends hend => exact .inl ⟨hend, rfl⟩
  | succ room ih =>
      rw [follow_cases]
      constructor
      · rintro (⟨hend, rfl⟩ | ⟨room', hash, entry, hroom, rfl, hne, hnew, hentry, hplaced, h⟩)
        · exact ⟨[], .ends hend, Nat.zero_le _, List.nodup_nil,
            fun _ h => absurd h List.not_mem_nil, fun _ h => absurd h List.not_mem_nil, rfl⟩
        · obtain rfl := Nat.succ.inj hroom
          obtain ⟨chain, hchain, hlength, hnodup, hfresh, hall, rfl⟩ := ih.mp h
          refine ⟨(hash, entry) :: chain, .entry hne hentry hchain, Nat.succ_le_succ hlength, ?_, ?_,
            List.forall_mem_cons.mpr ⟨hplaced, hall⟩, ?_⟩
          · refine List.nodup_cons.mpr ⟨fun hmem => ?_, hnodup⟩
            exact hfresh hash hmem List.mem_cons_self
          · refine List.forall_mem_cons.mpr ⟨hnew, fun other hmem hin => ?_⟩
            exact hfresh other hmem (List.mem_cons_of_mem _ hin)
          · rw [List.map_cons, List.reverse_cons, List.append_assoc, List.singleton_append,
              List.foldl_cons]
      · rintro ⟨chain, hchain, hroom, hnodup, hfresh, hall, rfl⟩
        cases hchain with
        | ends hend => exact .inl ⟨hend, rfl⟩
        | @entry hash entry rest hne hentry hrest =>
            obtain ⟨hnew, hnodup⟩ := List.nodup_cons.mp hnodup
            obtain ⟨hplaced, hall⟩ := List.forall_mem_cons.mp hall
            obtain ⟨hunseen, hfresh⟩ := List.forall_mem_cons.mp hfresh
            refine .inr ⟨room, hash, entry, rfl, rfl, hne, hunseen, hentry, hplaced, ih.mpr
              ⟨rest, hrest, Nat.le_of_succ_le_succ hroom, hnodup, fun other hmem hin => ?_, hall, ?_⟩⟩
            · rcases List.mem_cons.mp hin with rfl | hin
              · exact hnew hmem
              · exact hfresh other hmem hin
            · rw [List.map_cons, List.reverse_cons, List.append_assoc, List.singleton_append,
                List.foldl_cons]

/-! ## The location nearest the head -/

theorem latest_nil : Latest [] [] where
  distinct := List.nodup_nil
  complete := fun _ h => absurd h List.not_mem_nil
  nearest := fun _ h => absurd h List.not_mem_nil

/-- What the fold over a chain keeps, one entry further from the head. -/
theorem latest_keepFirst {chain : List (Text × Value)} {items : List StoryPointer}
    (h : Latest chain items) (entry : Text × Value) :
    Latest (chain ++ [entry]) (keepFirst items entry) := by
  have hold : ∀ item ∈ items, ∃ newer entry' older, chain ++ [entry] = newer ++ entry' :: older ∧
      pointer? entry'.1 entry'.2 = some item ∧
      ∀ other ∈ newer, ∀ item', pointer? other.1 other.2 = some item' → item'.id ≠ item.id := by
    intro item hitem
    obtain ⟨newer, entry', older, hchain, hrest⟩ := h.nearest item hitem
    exact ⟨newer, entry', older ++ [entry], by rw [hchain, List.append_assoc, List.cons_append],
      hrest⟩
  unfold keepFirst
  split
  · next item hitem =>
    split
    · next hknown =>
      -- an entry nearer the head is this Story's
      obtain ⟨found, hfound, hid⟩ := List.any_eq_true.mp hknown
      refine ⟨h.distinct, fun other hother item' hitem' => ?_, hold⟩
      rcases List.mem_append.mp hother with hother | hother
      · exact h.complete other hother item' hitem'
      · obtain rfl := List.mem_singleton.mp hother
        obtain rfl := Option.some.inj (hitem.symm.trans hitem')
        exact ⟨found, hfound, of_decide_eq_true hid⟩
    · next hnew =>
      have hfresh : ∀ other ∈ items, other.id ≠ item.id := fun other hother hid =>
        hnew (List.any_eq_true.mpr ⟨other, hother, decide_eq_true hid⟩)
      refine ⟨?_, fun other hother item' hitem' => ?_, fun other hother => ?_⟩
      · rw [List.map_append, List.nodup_append]
        refine ⟨h.distinct, List.nodup_singleton _, ?_⟩
        rintro a ha b hb rfl
        obtain ⟨other, hother, rfl⟩ := List.mem_map.mp ha
        exact hfresh other hother (List.mem_singleton.mp hb)
      · rcases List.mem_append.mp hother with hother | hother
        · obtain ⟨found, hfound, hid⟩ := h.complete other hother item' hitem'
          exact ⟨found, List.mem_append_left _ hfound, hid⟩
        · obtain rfl := List.mem_singleton.mp hother
          obtain rfl := Option.some.inj (hitem.symm.trans hitem')
          exact ⟨item, List.mem_append_right _ List.mem_cons_self, rfl⟩
      · rcases List.mem_append.mp hother with hother | hother
        · exact hold other hother
        · obtain rfl := List.mem_singleton.mp hother
          refine ⟨chain, entry, [], rfl, hitem, fun nearer hnearer item' hitem' hid => ?_⟩
          obtain ⟨found, hfound, hfoundId⟩ := h.complete nearer hnearer item' hitem'
          exact hfresh found hfound (hfoundId.trans hid)
  · next hnone =>
    refine ⟨h.distinct, fun other hother item' hitem' => ?_, hold⟩
    rcases List.mem_append.mp hother with hother | hother
    · exact h.complete other hother item' hitem'
    · obtain rfl := List.mem_singleton.mp hother
      rw [hnone] at hitem'
      cases hitem'

/-- **A fold over a chain keeps the location nearest the head of each Story.** -/
theorem latest_foldl (chain : List (Text × Value)) : Latest chain (chain.foldl keepFirst []) := by
  induction chain using List.reverseRecOn with
  | nil => exact latest_nil
  | append_singleton chain entry ih =>
      rw [List.foldl_append, List.foldl_cons, List.foldl_nil]
      exact latest_keepFirst ih entry

theorem Latest.of_perm {chain : List (Text × Value)} {items items' : List StoryPointer}
    (h : Latest chain items) (hperm : items.Perm items') : Latest chain items' where
  distinct := (hperm.map _).nodup_iff.mp h.distinct
  complete := fun entry hentry item hitem => by
    obtain ⟨found, hfound, hid⟩ := h.complete entry hentry item hitem
    exact ⟨found, hperm.mem_iff.mp hfound, hid⟩
  nearest := fun item hitem => h.nearest item (hperm.mem_iff.mpr hitem)

/-! ## The ledgers that are read, exactly -/

section Accepted

variable {localeLe : Text → Text → Bool} {head : Value} {files files' : List (Text × Text)}
  {chain : List (Text × Value)} {items : List StoryPointer}

/-- The items of a chain, in the order that they are listed in. -/
def itemsOf (localeLe : Text → Text → Bool) (chain : List (Text × Value)) : List StoryPointer :=
  (chain.foldl keepFirst []).insertionSort fun a b => localeLe a.id b.id = true

/-- Where no two files are named alike, a hash names one entry. -/
theorem indexed_unique (hdistinct : ((files.filter (isJsonFile ·.1)).map (jsonBasename ·.1)).Nodup)
    {hash : Text} {entry entry' : Value} (h : Indexed files hash entry)
    (h' : Indexed files hash entry') : entry = entry' := by
  obtain ⟨file, hfile, hjson, hname, hfiled⟩ := h
  obtain ⟨file', hfile', hjson', hname', hfiled'⟩ := h'
  have hsame : file = file' :=
    List.inj_on_of_nodup_map hdistinct (List.mem_filter.mpr ⟨hfile, hjson⟩)
      (List.mem_filter.mpr ⟨hfile', hjson'⟩) (hname.trans hname'.symm)
  exact filed_unique hfiled (hsame ▸ hfiled')

/-- The files of a ledger that is read hold one chain from the head. -/
theorem Accepted.chain_eq (h : Accepted head files chain) {chain' : List (Text × Value)}
    (h' : PointerChain (Indexed files) (head.member? (js "entryHash")) chain') : chain' = chain := by
  refine chain_unique ?_ h' h.linked
  exact fun _ _ _ => indexed_unique h.distinct

/-- **A ledger is read exactly when it is one acyclic chain of files that are
named by their digests, and what is read is read from that chain.** -/
theorem storyPointersFromLedger_ok_iff :
    storyPointersFromLedger localeLe head files = .ok items ↔
      ∃ chain, Accepted head files chain ∧ items = itemsOf localeLe chain := by
  unfold storyPointersFromLedger
  constructor
  · intro h
    split at h
    · cases h
    · next sequence hsequence =>
      obtain ⟨_, hbounded, h⟩ := bind_eq_ok_iff.mp h
      obtain ⟨_, hbinding, h⟩ := bind_eq_ok_iff.mp h
      obtain ⟨entries, hentries, h⟩ := bind_eq_ok_iff.mp h
      obtain ⟨⟨visited, latest⟩, hfollow, h⟩ := bind_eq_ok_iff.mp h
      obtain ⟨_, hlength, hitems⟩ := bind_eq_ok_iff.mp h
      rw [failIf_eq_ok_iff] at hbounded hbinding hlength
      obtain ⟨read, hread, hnodup, -, rfl⟩ := readIndex_ok_iff.mp hentries
      obtain ⟨chain, hchain, -, hacyclic, -, hlocated, hresult⟩ := follow_ok_iff.mp hfollow
      obtain ⟨rfl, rfl⟩ := Prod.mk.inj hresult
      simp only [List.append_nil, List.length_reverse, List.length_map, ne_eq, not_not]
        at hlength hchain
      refine ⟨chain, ?_, (Except.ok.inj hitems).symm⟩
      exact
        { sequence := hlength ▸ hsequence
          bounded := hlength ▸ Nat.le_of_not_lt hbounded
          binding := by rw [hlength]; simpa using hbinding
          filed := fun file hfile hjson => exists_filed hread (List.mem_filter.mpr ⟨hfile, hjson⟩)
          distinct := readFrom_names hread ▸ hnodup
          linked := chain_congr (fun _ _ => (mapGet_readFrom_iff hread hnodup).mp) hchain
          acyclic := hacyclic
          located := hlocated }
  · rintro ⟨chain, h, rfl⟩
    have hfiled : ∀ file ∈ files.filter (isJsonFile ·.1), ∃ entry, Filed file entry :=
      fun file hfile => h.filed file (List.mem_filter.mp hfile).1 (List.mem_filter.mp hfile).2
    obtain ⟨read, hread⟩ := exists_readFrom hfiled
    have hnodup : (read.map Prod.fst).Nodup := readFrom_names hread ▸ h.distinct
    have hentries : readIndex files [] = .ok (read.reverse ++ []) :=
      readIndex_ok_iff.mpr ⟨read, hread, hnodup, fun _ _ => List.not_mem_nil, rfl⟩
    have hfollow : follow read.reverse storyStateIndexLimit (head.member? (js "entryHash")) [] []
        = .ok ((chain.map Prod.fst).reverse ++ [], chain.foldl keepFirst []) :=
      follow_ok_iff.mpr ⟨chain,
        chain_congr (fun _ _ => (mapGet_readFrom_iff hread hnodup).mpr) h.linked, h.bounded,
        h.acyclic, fun _ _ => List.not_mem_nil, h.located, rfl⟩
    rw [h.sequence]
    refine bind_eq_ok_iff.mpr ⟨(), failIf_eq_ok_iff.mpr (Nat.not_lt.mpr h.bounded), ?_⟩
    refine bind_eq_ok_iff.mpr ⟨(), failIf_eq_ok_iff.mpr (by rw [h.binding]; exact Bool.noConfusion), ?_⟩
    refine bind_eq_ok_iff.mpr ⟨_, hentries, ?_⟩
    rw [List.append_nil]
    refine bind_eq_ok_iff.mpr ⟨_, hfollow, ?_⟩
    refine bind_eq_ok_iff.mpr ⟨(), failIf_eq_ok_iff.mpr ?_, rfl⟩
    simp

/-- The order of the files does not count. -/
theorem Accepted.of_perm (h : Accepted head files chain) (hperm : files.Perm files') :
    Accepted head files' chain where
  sequence := h.sequence
  bounded := h.bounded
  binding := h.binding
  filed := fun file hfile => h.filed file (hperm.mem_iff.mpr hfile)
  distinct := ((hperm.filter _).map _).nodup_iff.mp h.distinct
  linked := chain_congr (fun _ _ => by
    rintro ⟨file, hfile, hrest⟩
    exact ⟨file, hperm.mem_iff.mp hfile, hrest⟩) h.linked
  acyclic := h.acyclic
  located := h.located

theorem chain_of_indexed {stored : Text → Value → Prop} {cursor : Option Value}
    (hchain : PointerChain stored cursor chain)
    (h : ∀ entry ∈ chain, Indexed files' entry.1 entry.2) : PointerChain (Indexed files') cursor chain := by
  induction hchain with
  | ends hend => exact .ends hend
  | entry hne _ _ ih =>
      obtain ⟨hentry, hrest⟩ := List.forall_mem_cons.mp h
      exact .entry hne hentry (ih hrest)

/-- **The Stories are listed where the chain last located them.**  A ledger is
read exactly when it is an acyclic chain of as many entries as the head says,
in files that are named by their digests; of each Story with a usable entry
the one nearest the head is listed, once; and neither the order of the files
nor the entries outside of the chain change what is listed. -/
theorem storyPointersFromLedger_latest (localeLe : Text → Text → Bool) (head : Value)
    (files : List (Text × Text)) :
    ((∃ items, storyPointersFromLedger localeLe head files = .ok items) ↔
      ∃ chain, Accepted head files chain) ∧
    ∀ items, storyPointersFromLedger localeLe head files = .ok items →
      (∀ chain, Accepted head files chain → Latest chain items) ∧
      (∀ files', files.Perm files' →
        storyPointersFromLedger localeLe head files' = .ok items) ∧
      ∀ files' items', (∀ chain, Accepted head files chain →
          ∀ entry ∈ chain, Indexed files' entry.1 entry.2) →
        storyPointersFromLedger localeLe head files' = .ok items' → items' = items := by
  refine ⟨⟨?_, ?_⟩, ?_⟩
  · rintro ⟨items, h⟩
    obtain ⟨chain, hchain, -⟩ := storyPointersFromLedger_ok_iff.mp h
    exact ⟨chain, hchain⟩
  · rintro ⟨chain, hchain⟩
    exact ⟨_, storyPointersFromLedger_ok_iff.mpr ⟨chain, hchain, rfl⟩⟩
  · intro items h
    obtain ⟨chain, hchain, rfl⟩ := storyPointersFromLedger_ok_iff.mp h
    refine ⟨fun chain' hchain' => ?_, fun files' hperm => ?_, fun files' items' hkept h' => ?_⟩
    · obtain rfl := hchain.chain_eq hchain'.linked
      exact (latest_foldl _).of_perm (List.perm_insertionSort _ _).symm
    · exact storyPointersFromLedger_ok_iff.mpr ⟨chain, hchain.of_perm hperm, rfl⟩
    · obtain ⟨chain', hchain', rfl⟩ := storyPointersFromLedger_ok_iff.mp h'
      rw [hchain'.chain_eq (chain_of_indexed hchain.linked (hkept chain hchain))]

end Accepted

end Ledger

end SingularityFlow
