/-
# Reading Git objects in batches

`git cat-file --batch` answers a list of object IDs with one byte stream: for
each object a header line, the octets of the object and a line feed.  Nothing
marks where an object ends but the size in its own header, and a body may hold
line feeds and text that looks like a header.  The reader therefore trusts no
answer: a body is taken only when the line feed stands where the header's size
puts it, and only when it hashes to the ID that was asked for.

A call of the command is numbered, and `RunCommand` is any function from the
number and the command to an answer, so that equal commands may be answered
differently.  Nothing is assumed of the answers, nor of the hash function.

The walk over a stream is a recursion over the objects that it should hold; what
one object of it gives is `Named`: its octets hash to its ID.
-/
import SingularityFlow.Lib.Collections
import SingularityFlow.Lib.Coercion
import SingularityFlow.Lib.Json
import SingularityFlow.Lib.Sha256
import Mathlib.Data.List.TakeWhile

namespace SingularityFlow

open Ecma

namespace Git

/-! ## Commands and their answers -/

/-- An output of a command. -/
inductive Output where
  | absent
  | text (t : Text)
  | buffer (octets : Bytes)
deriving DecidableEq

/-- `String(output ?? '')`. -/
def Output.toText : Output → Text
  | .absent => []
  | .text t => t
  | .buffer octets => utf8Text octets

/-- `Buffer.isBuffer(output) ? output : Buffer.from(output ?? '', 'utf8')`. -/
def Output.toBytes : Output → Bytes
  | .absent => []
  | .text t => textEncode t
  | .buffer octets => octets

/-- An error of running the command at all. -/
structure CommandError where
  code : Option Text
deriving DecidableEq

/-- `error?.code === 'ENOBUFS'`. -/
def CommandError.overflow (error : Option CommandError) : Bool :=
  error.bind CommandError.code = some (js "ENOBUFS")

/-- What `runCommand` returns; a command that a signal ended has no status. -/
structure Answer where
  status : Option Int
  stdout : Output
  stderr : Output
  timedOut : Bool
  error : Option CommandError
deriving DecidableEq

/-- A command that ended with status zero, in time, and without an error. -/
def Answer.clean (answer : Answer) : Bool :=
  answer.status = some 0 && !answer.timedOut && answer.error.isNone

/-- The arguments of a call of `runCommand('git', …)` that differ between calls. -/
structure Command where
  args : List Text
  encoding : Option Text
  maxBuffer : Option Int
  input : Option Text
deriving DecidableEq

/-- The answer to the call with the number. -/
abbrev RunCommand := Nat → Command → Answer

def headerAllowance : Int := 1024 * 1024

/-- The input that asks for each object on a line of its own. -/
def inputLines (names : List Text) : Text := joinWith (js "\n") names ++ js "\n"

/-- `git cat-file --batch`. -/
def batchCommand (names : List Text) (budget : Int) : Command where
  args := [js "cat-file", js "--batch"]
  encoding := some (js "buffer")
  maxBuffer := some (budget + headerAllowance)
  input := some (inputLines names)

/-- `git cat-file --batch-check`. -/
def checkCommand (names : List Text) (maxBuffer : Int) : Command where
  args := [js "cat-file", js "--batch-check=%(objectname) %(objecttype) %(objectsize)"]
  encoding := none
  maxBuffer := some maxBuffer
  input := some (inputLines names)

/-! ## Object IDs -/

/-- A unit that `[0-9a-f]` matches. -/
def isLowerHex (u : UInt16) : Bool := isDigit u || (0x61 ≤ u.toNat && u.toNat ≤ 0x66)

/-- `/^(?:[0-9a-f]{40}|[0-9a-f]{64})$/`. -/
def isObjectId (t : Text) : Bool := (t.length = 40 || t.length = 64) && t.all isLowerHex

/-- The algorithms of `createHash`. -/
inductive Algorithm where
  | sha1
  | sha256
deriving DecidableEq

/-- The algorithm that an ID of this length comes from. -/
def algorithmOf (oid : Text) : Algorithm := if oid.length = 64 then .sha256 else .sha1

section Hash

variable (createHash : Algorithm → Bytes → Text)

/-- The hash of a body behind the header of an object of this type and size. -/
def objectHash (oid type : Text) (size : Nat) (body : Bytes) : Text :=
  createHash (algorithmOf oid) (textEncode (type ++ js " " ++ natText size ++ [0]) ++ body)

/-- The octets are an object of the type, and the ID is its Git object hash. -/
def Named (oid type : Text) (body : Bytes) : Prop :=
  objectHash createHash oid type body.length body = oid

instance (oid type : Text) (body : Bytes) : Decidable (Named createHash oid type body) :=
  inferInstanceAs (Decidable (_ = _))

end Hash

/-! ## The cursor

The stream from the cursor on is what is left of the octets. -/

/-- The octets up to the next line feed, and those behind it. -/
def takeLine (buffer : Bytes) : Option (Bytes × Bytes) :=
  match buffer.dropWhile (· ≠ 0x0A) with
  | [] => none
  | _ :: rest => some (buffer.takeWhile (· ≠ 0x0A), rest)

/-- A body of this size that a line feed ends, and the octets behind that. -/
def takeBody (size : Nat) (buffer : Bytes) : Option (Bytes × Bytes) :=
  match buffer.drop size with
  | [] => none
  | u :: rest => if u = 0x0A then some (buffer.take size, rest) else none

/-- A body has the size that was asked for, and stands at the front of the stream. -/
theorem takeBody_eq_some {size : Nat} {buffer body rest : Bytes}
    (h : takeBody size buffer = some (body, rest)) :
    body.length = size ∧ buffer = body ++ 0x0A :: rest := by
  unfold takeBody at h
  split at h
  · cases h
  · next u rest' hdrop =>
    simp only [Option.ite_none_right_eq_some, Option.some.injEq, Prod.mk.injEq] at h
    obtain ⟨rfl, rfl, rfl⟩ := h
    have hlt : size < buffer.length := by
      by_contra hle
      rw [List.drop_eq_nil_of_le (by omega)] at hdrop
      cases hdrop
    refine ⟨List.length_take_of_le hlt.le, ?_⟩
    rw [← hdrop, List.take_append_drop]

/-- What is framed by its size is read, whatever its octets and those behind it are. -/
theorem takeBody_append (body rest : Bytes) :
    takeBody body.length (body ++ 0x0A :: rest) = some (body, rest) := by
  simp [takeBody]

section Walk

variable {α β δ : Type} (key : α → Text) (object : α → Bytes → Except δ (β × Bytes))

/-- One pass over a stream that should hold an object for each entry.  It
stops at the first entry whose object it cannot read, and otherwise leaves
what is behind the last one. -/
def walk : List α → Bytes → List (Text × β) → List (Text × β) × Except δ Bytes
  | [], buffer, map => (map, .ok buffer)
  | entry :: rest, buffer, map =>
      match object entry buffer with
      | .error e => (map, .error e)
      | .ok (value, buffer) => walk rest buffer (mapSet map (key entry) value)

variable {key object}

/-- What a pass has read: for each entry its key, and a value of which `P` holds. -/
def Reads (key : α → Text) (P : α → β → Prop) : List α → List (Text × β) → Prop :=
  List.Forall₂ fun entry kv => kv.1 = key entry ∧ P entry kv.2

/-- **A pass that reaches its end has read an object for every entry**, and
what holds of every object that can be read holds of each of them. -/
theorem walk_eq_ok {P : α → β → Prop}
    (hobject : ∀ entry buffer value rest, object entry buffer = .ok (value, rest) → P entry value)
    {entries : List α} {buffer rest : Bytes} {map map' : List (Text × β)}
    (h : walk key object entries buffer map = (map', .ok rest)) :
    ∃ read, Reads key P entries read ∧ map' = read.reverse ++ map := by
  induction entries generalizing buffer map with
  | nil =>
      obtain ⟨rfl, -⟩ := Prod.mk.inj h
      exact ⟨[], .nil, rfl⟩
  | cons entry entries ih =>
      rw [walk] at h
      split at h
      · cases h
      · next value buffer' hvalue =>
        obtain ⟨read, hread, rfl⟩ := ih h
        refine ⟨(key entry, value) :: read, .cons ⟨rfl, hobject _ _ _ _ hvalue⟩ hread, ?_⟩
        rw [mapSet, List.reverse_cons, List.append_assoc, List.singleton_append]

end Walk

section Read

variable {α β : Type} {key : α → Text} {P : α → β → Prop} {entries : List α}
  {read : List (Text × β)}

theorem read_keys (h : Reads key P entries read) :
    read.map Prod.fst = entries.map key := by
  unfold Reads at h
  induction h with
  | nil => rfl
  | cons hhead _ ih => rw [List.map_cons, List.map_cons, hhead.1, ih]

theorem exists_read (h : Reads key P entries read) {entry : α} (hmem : entry ∈ entries) :
    ∃ value, (key entry, value) ∈ read ∧ P entry value := by
  unfold Reads at h
  induction h with
  | nil => cases hmem
  | @cons first kv _ _ hhead _ ih =>
      rcases List.mem_cons.mp hmem with rfl | hmem
      · exact ⟨kv.2, by rw [← hhead.1]; exact List.mem_cons_self .., hhead.2⟩
      · obtain ⟨value, hvalue, hholds⟩ := ih hmem
        exact ⟨value, List.mem_cons_of_mem _ hvalue, hholds⟩

/-- The map of a pass has the keys of the entries. -/
theorem exists_mapGet_read_iff (h : Reads key P entries read) {k : Text} :
    (∃ value, mapGet read.reverse k = some value) ↔ ∃ entry ∈ entries, key entry = k := by
  rw [exists_mapGet_iff, List.map_reverse, List.mem_reverse, read_keys h, List.mem_map]

/-- With keys that differ, each entry finds the object that was read for it. -/
theorem mapGet_read (h : Reads key P entries read)
    (hkeys : (entries.map key).Nodup) {entry : α} (hmem : entry ∈ entries) :
    ∃ value, mapGet read.reverse (key entry) = some value ∧ P entry value := by
  obtain ⟨value, hvalue, hholds⟩ := exists_read h hmem
  refine ⟨value, mapGet_of_mem ?_ (List.mem_reverse.mpr hvalue), hholds⟩
  rw [List.map_reverse, List.nodup_reverse, read_keys h]
  exact hkeys

end Read

/-! ## Groups of bounded size -/

section Batches

variable {α : Type} (size : α → Nat) (maximumBytes : Int)

/-- `batches`, with the group that is being filled and its bytes. -/
def batchesFrom : List α → Nat → List α → List (List α)
  | current, _, [] => if current.isEmpty then [] else [current]
  | current, bytes, entry :: rest =>
      if !current.isEmpty && maximumBytes < (bytes + size entry : Nat) then
        current :: batchesFrom [entry] (size entry) rest
      else batchesFrom (current ++ [entry]) (bytes + size entry) rest

/-- The entries in groups, each within the bound or of one entry. -/
def batches (entries : List α) : List (List α) := batchesFrom size maximumBytes [] 0 entries

theorem batchesFrom_flatten (current : List α) (bytes : Nat) (entries : List α) :
    (batchesFrom size maximumBytes current bytes entries).flatten = current ++ entries := by
  induction entries generalizing current bytes with
  | nil => cases current <;> simp [batchesFrom]
  | cons entry rest ih =>
      rw [batchesFrom]
      split
      · rw [List.flatten_cons, ih, List.singleton_append]
      · rw [ih, List.append_assoc, List.singleton_append]

/-- The groups hold the entries, in order. -/
theorem batches_flatten (entries : List α) :
    (batches size maximumBytes entries).flatten = entries :=
  batchesFrom_flatten size maximumBytes [] 0 entries

end Batches

/-! ## Reading by object ID -/

/-- What `readObjectsBatch` says of one object. -/
inductive ObjectAnswer where
  | ok (oid type : Text) (size : Nat) (bytes : Option Bytes)
  | missing
  | unavailable (reason : Text)
  | tooLarge (oid : Text) (size : Nat)
  | pending (oid type : Text) (size : Nat)
deriving DecidableEq

/-- The bounds of a read, in octets. -/
structure Limits where
  maxObjectBytes : Int := 16 * 1024 * 1024
  maxBatchBytes : Int := 16 * 1024 * 1024

/-- `Number(rawSize)`, where it is a safe integer and not below zero. -/
def sizeOf? (rawSize : Text) : Option Nat := (stringToNumber rawSize).safeSize?

section Reading

variable (createHash : Algorithm → Bytes → Text) (runCommand : RunCommand) (limits : Limits)

/-- One object of a stream whose sizes were not asked for. -/
def unsizedObject (spec : Text) (buffer : Bytes) : Except Unit (ObjectAnswer × Bytes) :=
  match takeLine buffer with
  | none => .error ()
  | some (line, buffer) =>
      match (trim (utf8Text line)).splitOn 0x20 with
      | [oid, type, rawSize] =>
          match sizeOf? rawSize with
          | none => .error ()
          | some size =>
              if oid ≠ spec ∨ limits.maxObjectBytes < size then .error ()
              else
                match takeBody size buffer with
                | none => .error ()
                | some (body, buffer) =>
                    if objectHash createHash oid type size body ≠ oid then .error ()
                    else .ok (.ok oid type size (some body), buffer)
      | _ => .error ()

/-- `readObjectsWithoutSizing`: up to 256 object IDs in one process. -/
def readObjectsWithoutSizing (call : Nat) (unique : List Text) :
    Option (List (Text × ObjectAnswer)) :=
  if 256 < unique.length ∨ ¬ unique.all isObjectId then none
  else
    let budget := min (max 1 limits.maxBatchBytes) (unique.length * limits.maxObjectBytes)
    if budget < 0 ∨ 2 ^ 53 ≤ budget then none
    else
      let batch := runCommand call (batchCommand unique budget)
      if !batch.clean then none
      else
        match walk id (unsizedObject createHash limits) unique batch.stdout.toBytes [] with
        | (answers, .ok []) => some answers
        | _ => none

/-- What Git says of one name, when it was only asked for ID, type and size. -/
def checkedAnswer (checkOnly : Bool) (spec line : Text) : ObjectAnswer :=
  let notLocal := js "object is not available locally"
  let refused := ObjectAnswer.unavailable
    (if (js " missing").isSuffixOf line then notLocal
      else js "Git answered '" ++ line.take 120 ++ js "'")
  if line = spec ++ js " missing" then
    -- an absent path is an answer; an object ID that Git cannot find is not
    if spec.elem 0x3A then .missing else .unavailable notLocal
  else
    match line.splitOn 0x20 with
    | [oid, type, rawSize] =>
        match sizeOf? rawSize with
        | none => refused
        | some size =>
            if !isObjectId oid then refused
            else if checkOnly then .ok oid type size none
            else if limits.maxObjectBytes < size then .tooLarge oid size
            else .pending oid type size
    | _ => refused

/-- An object that is still to be read. -/
structure Wanted where
  oid : Text
  type : Text
  size : Nat
deriving DecidableEq

def ObjectAnswer.wanted? : ObjectAnswer → Option Wanted
  | .pending oid type size => some { oid, type, size }
  | _ => none

/-- `[...new Map(wanted.map((entry) => [entry.oid, entry])).values()]`: of the
entries with one ID the last is kept, in the place of the first. -/
def lastOfEach (wanted : List Wanted) : List Wanted :=
  (distinct (wanted.map Wanted.oid)).filterMap fun oid => wanted.reverse.find? (·.oid = oid)

/-- One object of a stream whose sizes are known. -/
def sizedObject (entry : Wanted) (buffer : Bytes) : Except Unit (Bytes × Bytes) :=
  match takeLine buffer with
  | none => .error ()
  | some (line, buffer) =>
      match (trim (utf8Text line)).splitOn 0x20 with
      | oid :: type :: rawSize :: _ =>
          if oid ≠ entry.oid ∨ type ≠ entry.type ∨ sizeOf? rawSize ≠ some entry.size then .error ()
          else
            match takeBody entry.size buffer with
            | none => .error ()
            | some (body, buffer) =>
                if objectHash createHash oid type entry.size body ≠ oid then .error ()
                else .ok (body, buffer)
      | _ => .error ()

/-- The groups of a sized read, one process each. -/
def readSizedGroups : Nat → List (List Wanted) → List (Text × Bytes) → Option (List (Text × Bytes))
  | _, [], objects => some objects
  | call, group :: rest, objects =>
      let expected : Nat := (group.map Wanted.size).sum
      let batch := runCommand call (batchCommand (group.map Wanted.oid) expected)
      if !batch.clean then none
      else
        match walk Wanted.oid (sizedObject createHash) group batch.stdout.toBytes objects with
        | (objects, .ok []) => readSizedGroups (call + 1) rest objects
        | _ => none

/-- A pending answer, with the octets that were read for it. -/
def ObjectAnswer.fill (objects : List (Text × Bytes)) : ObjectAnswer → ObjectAnswer
  | .pending oid type size => .ok oid type size (mapGet objects oid)
  | answer => answer

/-- `replace(/\n$/u, '').split('\n')`. -/
def outputLines (t : Text) : List Text := (chomp 0x0A t).splitOn 0x0A

/-- The command that asks Git for the ID, type and size of each name. -/
def namesCommand (unique : List Text) : Command := checkCommand unique (unique.length * 256 + 1024)

/-- What Git reports of each name, as it is read from the lines of the answer. -/
def checkedAnswers (checkOnly : Bool) (unique lines : List Text) : List (Text × ObjectAnswer) :=
  (unique.zip lines).map fun asked => (asked.1, checkedAnswer limits checkOnly asked.1 asked.2)

/-- The read that asks for the sizes first. -/
def readSizedObjects (call : Nat) (checkOnly : Bool) (unique : List Text) :
    Option (List (Text × ObjectAnswer)) :=
  let checked := runCommand call (namesCommand unique)
  if !checked.clean then none
  else
    let lines := outputLines checked.stdout.toText
    if lines.length ≠ unique.length then none
    else
      let answers := checkedAnswers limits checkOnly unique lines
      let wanted := answers.filterMap (·.2.wanted?)
      let groups := batches Wanted.size (max 1 limits.maxBatchBytes) (lastOfEach wanted)
      (readSizedGroups createHash runCommand (call + 1) groups []).map fun objects =>
        answers.map fun answer => (answer.1, answer.2.fill objects)

/-- `readObjectsBatch`.  The read without sizes is call 0, the check of the
names call 1, and the groups are calls from 2 on. -/
def readObjectsBatch (specs : List Text) (checkOnly : Bool) : Option (List (Text × ObjectAnswer)) :=
  let unique := distinct specs
  if unique = [] then some []
  else if unique.any fun spec => spec.isEmpty || spec.elem 0x0D || spec.elem 0x0A then none
  else
    let unsized :=
      if checkOnly then none else readObjectsWithoutSizing createHash runCommand limits 0 unique
    match unsized with
    | some answers => some answers
    | none => readSizedObjects createHash runCommand limits 1 checkOnly unique

/-! ## What a read has verified -/

variable {createHash runCommand limits}

/-- The answer holds an object of the ID that was asked for. -/
def WholeObject (createHash : Algorithm → Bytes → Text) (spec : Text) (answer : ObjectAnswer) :
    Prop :=
  ∃ type body, answer = .ok spec type body.length (some body) ∧ Named createHash spec type body

/-- The octets are the object that was asked for. -/
def WantedObject (createHash : Algorithm → Bytes → Text) (entry : Wanted) (body : Bytes) : Prop :=
  body.length = entry.size ∧ Named createHash entry.oid entry.type body

theorem unsizedObject_ok {spec : Text} {buffer rest : Bytes} {answer : ObjectAnswer}
    (h : unsizedObject createHash limits spec buffer = .ok (answer, rest)) :
    WholeObject createHash spec answer := by
  unfold unsizedObject at h
  split at h
  · cases h
  · next line behind hline =>
    split at h
    · next oid type rawSize hfields =>
      split at h
      · cases h
      · next size hsize =>
        split_ifs at h with hrefused
        obtain ⟨rfl, -⟩ : oid = spec ∧ ¬ limits.maxObjectBytes < size := by
          simpa only [not_or, not_not] using hrefused
        split at h
        · cases h
        · next body behind' hbody =>
          split_ifs at h with hhash
          obtain ⟨rfl, rfl⟩ := Prod.mk.inj (Except.ok.inj h)
          obtain ⟨rfl, -⟩ := takeBody_eq_some hbody
          exact ⟨type, body, rfl, not_not.mp hhash⟩
    · cases h

/-- The octets of a sized read have the size and the ID that were asked for. -/
theorem sizedObject_ok {entry : Wanted} {buffer rest body : Bytes}
    (h : sizedObject createHash entry buffer = .ok (body, rest)) :
    WantedObject createHash entry body := by
  unfold sizedObject at h
  split at h
  · cases h
  · next line behind hline =>
    split at h
    · next oid type rawSize more hfields =>
      split_ifs at h with hrefused
      obtain ⟨rfl, rfl, -⟩ : oid = entry.oid ∧ type = entry.type ∧
          sizeOf? rawSize = some entry.size := by
        simpa only [not_or, not_not] using hrefused
      split at h
      · cases h
      · next body' behind' hbody =>
        split_ifs at h with hhash
        obtain ⟨rfl, rfl⟩ := Prod.mk.inj (Except.ok.inj h)
        obtain ⟨hsize, -⟩ := takeBody_eq_some hbody
        exact ⟨hsize, by rw [Named, hsize]; exact not_not.mp hhash⟩
    · cases h

/-- **A read of object IDs answers for each of them with an object of that ID.** -/
theorem readObjectsWithoutSizing_eq_some {call : Nat} {unique : List Text}
    {answers : List (Text × ObjectAnswer)}
    (h : readObjectsWithoutSizing createHash runCommand limits call unique = some answers) :
    (∀ spec ∈ unique, isObjectId spec = true) ∧
      ∃ read, Reads id (WholeObject createHash) unique read ∧ answers = read.reverse := by
  unfold readObjectsWithoutSizing at h
  dsimp only at h
  split_ifs at h with hids hbudget hclean
  split at h
  · next answers' hwalk =>
    obtain rfl := Option.some.inj h
    obtain ⟨read, hread, rfl⟩ := walk_eq_ok
      (P := WholeObject createHash) (fun _ _ _ _ => unsizedObject_ok) hwalk
    refine ⟨?_, read, hread, List.append_nil _⟩
    exact List.all_eq_true.mp (not_not.mp (not_or.mp hids).2)
  · cases h

theorem readSizedGroups_eq_some {call : Nat} {groups : List (List Wanted)}
    {objects objects' : List (Text × Bytes)}
    (h : readSizedGroups createHash runCommand call groups objects = some objects') :
    ∃ read, Reads Wanted.oid (WantedObject createHash) groups.flatten read ∧
      objects' = read.reverse ++ objects := by
  induction groups generalizing call objects with
  | nil => exact ⟨[], .nil, (Option.some.inj h).symm⟩
  | cons group rest ih =>
      rw [readSizedGroups] at h
      split_ifs at h with hclean
      split at h
      · next objects₁ hwalk =>
        obtain ⟨read₁, hread₁, rfl⟩ := walk_eq_ok
          (P := WantedObject createHash) (fun _ _ _ _ => sizedObject_ok) hwalk
        obtain ⟨read₂, hread₂, rfl⟩ := ih h
        refine ⟨read₁ ++ read₂, ?_, by rw [List.reverse_append, List.append_assoc]⟩
        rw [List.flatten_cons]
        exact List.rel_append hread₁ hread₂
      · cases h

section LastOfEach

variable {wanted : List Wanted} {entry : Wanted}

theorem oid_of_find {oid : Text} (h : wanted.reverse.find? (·.oid = oid) = some entry) :
    entry.oid = oid := by
  simpa using List.find?_some h

theorem mem_of_mem_lastOfEach (h : entry ∈ lastOfEach wanted) : entry ∈ wanted := by
  obtain ⟨oid, -, hfind⟩ := List.mem_filterMap.mp h
  exact List.mem_reverse.mp (List.mem_of_find?_eq_some hfind)

theorem exists_mem_lastOfEach (h : entry ∈ wanted) :
    ∃ last ∈ lastOfEach wanted, last.oid = entry.oid := by
  have hsome : (wanted.reverse.find? (·.oid = entry.oid)).isSome = true :=
    List.find?_isSome.mpr ⟨entry, List.mem_reverse.mpr h, by simp⟩
  obtain ⟨last, hlast⟩ := Option.isSome_iff_exists.mp hsome
  refine ⟨last, List.mem_filterMap.mpr ⟨entry.oid, ?_, hlast⟩, oid_of_find hlast⟩
  exact mem_distinct.mpr (List.mem_map_of_mem h)

/-- No ID is asked for twice. -/
theorem lastOfEach_oids_nodup : ((lastOfEach wanted).map Wanted.oid).Nodup := by
  have hsub : ((lastOfEach wanted).map Wanted.oid).Sublist (distinct (wanted.map Wanted.oid)) := by
    rw [lastOfEach]
    generalize distinct (wanted.map Wanted.oid) = oids
    induction oids with
    | nil => exact .slnil
    | cons oid oids ih =>
        rw [List.filterMap_cons]
        split
        · exact .cons _ ih
        · next last hlast =>
          rw [List.map_cons, oid_of_find hlast]
          exact .cons_cons _ ih
  exact hsub.nodup (nodup_distinct _)

end LastOfEach

/-! ### The check of the names -/

section Checked

variable {checkOnly : Bool} {spec line oid type : Text} {size : Nat} {bytes : Option Bytes}

/-- The object ID that a line of the check shows. -/
def reportedId (line : Text) : Option Text := (line.splitOn 0x20).head?

/-- The object ID that an answer repeats. -/
def ObjectAnswer.oid? : ObjectAnswer → Option Text
  | .ok oid _ _ _ | .tooLarge oid _ | .pending oid _ _ => some oid
  | .missing | .unavailable _ => none

/-- An answer of the check that names an object names the one that Git's line
shows, and it is final exactly when nothing is to be read. -/
theorem checkedAnswer_oid (h : (checkedAnswer limits checkOnly spec line).oid? = some oid) :
    reportedId line = some oid ∧
      ((∃ size, checkedAnswer limits checkOnly spec line = .tooLarge oid size) ∨
        ∃ type size, checkedAnswer limits checkOnly spec line
          = if checkOnly then .ok oid type size none else .pending oid type size) := by
  unfold checkedAnswer at h ⊢
  dsimp only at h ⊢
  split at h
  · split at h <;> cases h
  · next hmissing =>
    rw [if_neg hmissing]
    split at h
    · next oid' type rawSize hfields =>
      have hid : reportedId line = some oid' := by rw [reportedId, hfields, List.head?_cons]
      split at h
      · cases h
      · next size hsize =>
        split at h
        · cases h
        · next hvalid =>
          rw [if_neg hvalid]
          split at h
          · next honly =>
            obtain rfl := Option.some.inj h
            exact ⟨hid, .inr ⟨type, size, by rw [if_pos honly, if_pos honly]⟩⟩
          · next honly =>
            rw [if_neg honly]
            split at h
            · next hlarge =>
              obtain rfl := Option.some.inj h
              exact ⟨hid, .inl ⟨size, if_pos hlarge⟩⟩
            · next hlarge =>
              obtain rfl := Option.some.inj h
              exact ⟨hid, .inr ⟨type, size, by rw [if_neg hlarge, if_neg honly]⟩⟩
    · cases h

end Checked

section Filled

variable {objects : List (Text × Bytes)} {answer : ObjectAnswer}

theorem oid_fill : (answer.fill objects).oid? = answer.oid? := by
  cases answer <;> rfl

theorem eq_pending_of_wanted {entry : Wanted} (h : answer.wanted? = some entry) :
    answer = .pending entry.oid entry.type entry.size := by
  cases answer with
  | pending oid type size => cases h; rfl
  | _ => cases h

end Filled

theorem checkedAnswers_keys {checkOnly : Bool} {unique lines : List Text}
    (h : lines.length = unique.length) :
    (checkedAnswers limits checkOnly unique lines).map Prod.fst = unique := by
  rw [checkedAnswers, List.map_map]
  exact List.map_fst_zip h.ge

/-- What a sized read answers of a name. -/
theorem readSizedObjects_ok {call : Nat} {checkOnly : Bool} {unique : List Text}
    {answers : List (Text × ObjectAnswer)} (hunique : unique.Nodup)
    (h : readSizedObjects createHash runCommand limits call checkOnly unique = some answers)
    {spec oid type : Text} {size : Nat} {bytes : Option Bytes}
    (ha : mapGet answers spec = some (.ok oid type size bytes)) :
    (∃ line, (spec, line) ∈ unique.zip
        (outputLines (runCommand call (namesCommand unique)).stdout.toText) ∧
      reportedId line = some oid) ∧
    if checkOnly then bytes = none
    else ∃ body, bytes = some body ∧ ∃ spec' type',
      mapGet answers spec' = some (.ok oid type' body.length (some body)) ∧
        Named createHash oid type' body := by
  unfold readSizedObjects at h
  dsimp only at h
  split_ifs at h with hclean hlines
  set lines := outputLines (runCommand call (namesCommand unique)).stdout.toText with hlinesdef
  set checked := checkedAnswers limits checkOnly unique lines with hchecked
  obtain ⟨objects, hobjects, rfl⟩ := Option.map_eq_some_iff.mp h
  obtain ⟨read, hread, rfl⟩ := readSizedGroups_eq_some hobjects
  rw [batches_flatten] at hread
  rw [List.append_nil] at ha ⊢
  have hkeys : ((checked.map fun answer => (answer.1, answer.2.fill read.reverse)).map
      Prod.fst).Nodup := by
    rw [List.map_map, hchecked]
    exact (checkedAnswers_keys (not_not.mp hlines)).symm ▸ hunique
  -- the answer stands for one line of the check
  obtain ⟨⟨spec₀, answer⟩, hmem, heq⟩ := List.mem_map.mp (mem_of_mapGet ha)
  obtain ⟨rfl, hfill⟩ := Prod.mk.inj heq
  obtain ⟨⟨spec₁, line⟩, hzip, heq⟩ := List.mem_map.mp hmem
  obtain ⟨rfl, rfl⟩ := Prod.mk.inj heq
  dsimp only at hfill ha
  have hoid : (checkedAnswer limits checkOnly spec₁ line).oid? = some oid := by
    rw [← oid_fill, hfill]
    rfl
  obtain ⟨hid, hcases⟩ := checkedAnswer_oid hoid
  refine ⟨⟨line, hzip, hid⟩, ?_⟩
  rcases hcases with ⟨size', hlarge⟩ | ⟨type', size', hcase⟩
  · rw [hlarge] at hfill
    cases hfill
  · rw [hcase] at hfill
    split at hfill
    · next honly =>
      cases hfill
      rw [if_pos honly]
    · next honly =>
      rw [if_neg honly]
      -- the octets are those of the last entry with this ID
      rw [hcase, if_neg honly] at hmem
      have hwanted : (⟨oid, type', size'⟩ : Wanted) ∈ checked.filterMap (·.2.wanted?) :=
        List.mem_filterMap.mpr ⟨_, hmem, rfl⟩
      obtain ⟨last, hlast, hoid⟩ := exists_mem_lastOfEach hwanted
      obtain ⟨body, hbody, hsize, hnamed⟩ := mapGet_read hread lastOfEach_oids_nodup hlast
      obtain ⟨⟨spec', answer'⟩, hmem', hanswer'⟩ :=
        List.mem_filterMap.mp (mem_of_mem_lastOfEach hlast)
      dsimp only at hoid hanswer'
      rw [hoid] at hbody hnamed
      cases hfill
      refine ⟨body, hbody, spec', last.type, mapGet_of_mem hkeys ?_, hnamed⟩
      refine List.mem_map.mpr ⟨_, hmem', ?_⟩
      rw [eq_pending_of_wanted hanswer', ObjectAnswer.fill, hoid, hbody, hsize]

/-- The object ID that Git reported for a name: the name itself where it was
read as an object ID, and else the one that the name's line of the check shows. -/
def ReportedFor (runCommand : RunCommand) (unique : List Text) (spec oid : Text) : Prop :=
  (isObjectId spec = true ∧ oid = spec) ∨
    ∃ line, (spec, line) ∈ unique.zip
        (outputLines (runCommand 1 (namesCommand unique)).stdout.toText) ∧
      reportedId line = some oid

/-- **The octets of an answer hash to the object ID that Git reported for its
name.**  The type behind that hash is the one that Git gave this ID, in the
answer itself or, where it gave one ID two types, in that of another name. -/
theorem readObjectsBatch_ok {specs : List Text} {checkOnly : Bool}
    {answers : List (Text × ObjectAnswer)}
    (h : readObjectsBatch createHash runCommand limits specs checkOnly = some answers)
    {spec oid type : Text} {size : Nat} {bytes : Option Bytes}
    (ha : mapGet answers spec = some (.ok oid type size bytes)) :
    ReportedFor runCommand (distinct specs) spec oid ∧
    if checkOnly then bytes = none
    else ∃ body, bytes = some body ∧ ∃ spec' type',
      mapGet answers spec' = some (.ok oid type' body.length (some body)) ∧
        Named createHash oid type' body := by
  unfold readObjectsBatch at h
  dsimp only at h
  split_ifs at h with hempty hinvalid honly
  · obtain rfl := Option.some.inj h
    cases ha
  · obtain ⟨hreported, hbytes⟩ := readSizedObjects_ok (nodup_distinct _) h ha
    exact ⟨.inr hreported, hbytes⟩
  · split at h
    · next answers' hunsized =>
      obtain rfl := Option.some.inj h
      obtain ⟨hids, read, hread, rfl⟩ := readObjectsWithoutSizing_eq_some hunsized
      have hkeys : ((distinct specs).map id).Nodup := by
        rw [List.map_id]
        exact nodup_distinct specs
      obtain ⟨asked, hasked, rfl⟩ := (exists_mapGet_read_iff hread).mp ⟨_, ha⟩
      obtain ⟨answer, hanswer, type', body, rfl, hnamed⟩ := mapGet_read hread hkeys hasked
      rw [ha] at hanswer
      cases hanswer
      rw [if_neg honly]
      exact ⟨.inl ⟨hids _ hasked, rfl⟩, body, rfl, _, type, ha, hnamed⟩
    · obtain ⟨hreported, hbytes⟩ := readSizedObjects_ok (nodup_distinct _) h ha
      exact ⟨.inr hreported, hbytes⟩

end Reading

end Git

end SingularityFlow
