/-
# The records of one Git ref, read whole or not at all

`readRefTreeResult` resolves a ref to a tree, lists the blobs of the tree and
reads those that its filters accept.  A ref without matching paths is an empty
answer; a missing ref, a listing that cannot be decoded, an object that is not
here and a stream that is cut off are not, and each has a status of its own.

Only `ok` says that the map is complete.  The model makes every early exit an
`error` that carries the result which is returned there, so that what is left
to show of them is one fact for each stage: its result is not `ok`.  On the way
that reaches `ok`, the map is what the passes over the streams have read, and
that is one object for each accepted entry (`Reads`).

The two readers are put side by side in `reads_verified`: whatever Git answers,
no content is handed out that does not hash to the ID that it is filed under.
-/
import SingularityFlow.Errors
import SingularityFlow.Git.Objects

namespace SingularityFlow

open Ecma

namespace Git

/-! ## Results -/

/-- An entry of a tree.  Its size is `null` as long as Git was not asked for it. -/
structure Entry where
  mode : Text
  type : Text
  oid : Text
  file : Text
  size : Option Nat
deriving DecidableEq

/-- The size in a sum or a comparison. -/
def Entry.bytes (entry : Entry) : Nat := entry.size.getD 0

structure Diagnostic where
  code : Text
  message : Text
  details : List (Text × Value)
deriving DecidableEq

inductive Status where
  | ok
  | missing
  | unavailable
  | incomplete
deriving DecidableEq

/-- `result`; the status `incomplete` is written `partial` there. -/
structure ReadResult where
  status : Status
  contents : List (Text × Text)
  errors : List Diagnostic
  objectsRequested : Nat
  objectsRead : Nat
deriving DecidableEq

/-- A result that no object was read for. -/
def ReadResult.unread (status : Status) (errors : List Diagnostic) (objectsRequested : Nat) :
    ReadResult :=
  { status, contents := [], errors, objectsRequested, objectsRead := 0 }

def sizeValue (n : Nat) : Value := .num (.ofNat n)

/-! ## One stream -/

section ParseBatch

variable (createHash : Algorithm → Bytes → Text)

/-- `header.split(/\s+/)`, of a header that is trimmed. -/
def headerParts (header : Text) : List Text :=
  if header = [] then [[]] else (header.splitOnP isTrimmed).filter (· ≠ [])

/-- One object of the stream, as `parseBatch` takes it. -/
def blobObject (entry : Entry) (buffer : Bytes) : Except Diagnostic (Text × Bytes) :=
  let path := (js "path", Value.str entry.file)
  match takeLine buffer with
  | none => .error {
      code := js "REF_TREE_BATCH_HEADER_MISSING"
      message := js "No batch header was returned for " ++ entry.file ++ js "."
      details := [path] }
  | some (line, buffer) =>
      let parts := headerParts (trim (utf8Text line))
      let invalid : Diagnostic := {
        code := if parts.getLast? = some (js "missing") then js "REF_TREE_OBJECT_MISSING"
          else js "REF_TREE_BATCH_HEADER_INVALID"
        message := js "Git returned an invalid batch header for " ++ entry.file ++ js "."
        details := [path, (js "object", .str entry.oid)] }
      match parts with
      | oid :: type :: rawSize :: _ =>
          if oid ≠ entry.oid ∨ type ≠ js "blob" then .error invalid
          else
            match sizeOf? rawSize with
            | some size =>
                if some size ≠ entry.size then .error (mismatch rawSize)
                else
                  match takeBody size buffer with
                  | none => .error {
                      code := js "REF_TREE_BATCH_TRUNCATED"
                      message := js "Git returned incomplete bytes for " ++ entry.file ++ js "."
                      details := [path, (js "expectedBytes", sizeValue size),
                        (js "availableBytes", sizeValue buffer.length)] }
                  | some (body, buffer) =>
                      let actualOid := objectHash createHash entry.oid (js "blob") size body
                      if actualOid ≠ entry.oid then .error {
                        code := js "REF_TREE_OBJECT_HASH_MISMATCH"
                        message := js "Git returned bytes that do not match " ++ entry.file ++ js "."
                        details := [path, (js "object", .str entry.oid),
                          (js "actualObject", .str actualOid)] }
                      else .ok (utf8Text body, buffer)
            | none => .error (mismatch rawSize)
      | _ => .error invalid
where
  mismatch (rawSize : Text) : Diagnostic := {
    code := js "REF_TREE_OBJECT_SIZE_MISMATCH"
    message := js "Git returned a different size for " ++ entry.file ++ js "."
    details := [(js "path", .str entry.file),
      (js "listedBytes", (entry.size.map sizeValue).getD .null),
      (js "returnedBytes",
        let size := stringToNumber rawSize
        if size.isFinite then .num size else .null)] }

/-- `parseBatch`: the contents that were decoded, and the errors. -/
def parseBatch (buffer : Bytes) (entries : List Entry) : List (Text × Text) × List Diagnostic :=
  match walk Entry.file (blobObject createHash) entries buffer [] with
  | (contents, .error e) => (contents, [e])
  | (contents, .ok []) => (contents, [])
  | (contents, .ok (u :: rest)) => (contents, [{
      code := js "REF_TREE_BATCH_TRAILING_BYTES"
      message := js "Git returned unclaimed bytes after the requested objects."
      details := [(js "bytes", sizeValue (u :: rest).length)] }])

end ParseBatch

/-! ## The tree of the ref -/

/-- `git rev-parse --verify`. -/
def revParseCommand (ref : Text) : Command where
  args := [js "rev-parse", js "--verify", js "--quiet", ref ++ js "^{tree}"]
  encoding := none
  maxBuffer := none
  input := none

def refDetails (ref : Text) : List (Text × Value) := [(js "ref", .str ref)]

/-- `/^([0-9a-f]{40}|[0-9a-f]{64})\r?\n?$/`, with the ID that it captures. -/
def treeOid? (stdout : Text) : Option Text :=
  let oid := chomp 0x0D (chomp 0x0A stdout)
  if isObjectId oid then some oid else none

/-- The tree that the ref stands for. -/
def resolveTree (ref : Text) (verified : Answer) : Except ReadResult Text :=
  if verified.status ≠ some 0 then
    -- an absent ref is reported with status 1 and no diagnostic
    let unavailable := verified.timedOut || verified.error.isSome
      || trim verified.stderr.toText ≠ [] || verified.status ≠ some 1
    .error (.unread (if unavailable then .unavailable else .missing) [{
      code :=
        if verified.timedOut then js "REF_TREE_REF_TIMEOUT"
        else if CommandError.overflow verified.error then js "REF_TREE_REF_OVERFLOW"
        else if verified.error.isSome then js "REF_TREE_GIT_UNAVAILABLE"
        else if unavailable then js "REF_TREE_REF_FAILED"
        else js "REF_TREE_REF_MISSING"
      message :=
        if unavailable then js "Git could not inspect ref '" ++ ref ++ js "'."
        else js "Git ref '" ++ ref ++ js "' does not exist."
      details := refDetails ref }] 0)
  else
    match treeOid? verified.stdout.toText with
    | some oid => .ok oid
    | none => .error (.unread .unavailable [{
        code := js "REF_TREE_REF_INVALID"
        message := js "Git returned an invalid tree object ID for '" ++ ref ++ js "'."
        details := refDetails ref }] 0)

/-! ## The listing -/

/-- `git ls-tree`; `%(objectsize)` is left out where it is asked for later. -/
def listCommand (deferredSizes : Bool) (tree : Text) (pathspecs : List Text) : Command where
  args := [js "ls-tree", js "-r", js "-z",
    if deferredSizes then
      js "--format=%(objectmode)%x09%(objecttype)%x09%(objectname)%x09%(path)"
    else
      js "--format=%(objectmode)%x09%(objecttype)%x09%(objectname)%x09%(objectsize)%x09%(path)",
    tree, js "--"] ++ pathspecs
  encoding := none
  maxBuffer := none
  input := none

/-- `/^[0-7]{6}$/`. -/
def isMode (t : Text) : Bool :=
  t.length = 6 && t.all fun u => 0x30 ≤ u.toNat && u.toNat ≤ 0x37

/-- One row of the listing, when it is valid. -/
def parseRow (deferredSizes : Bool) (treeOid row : Text) : Option Entry :=
  match row.splitOn 0x09 with
  | mode :: type :: oid :: remaining =>
      let file := joinWith (js "\t") (if deferredSizes then remaining else remaining.tail)
      if !isMode mode || !(type = js "blob" || type = js "commit") || !isObjectId oid
          || oid.length ≠ treeOid.length || file.isEmpty then none
      else if deferredSizes then some { mode, type, oid, file, size := none }
      else (remaining.head?.bind sizeOf?).map fun size => { mode, type, oid, file, size := some size }
  | _ => none

/-- A filter of the caller; without one, every entry passes. -/
def accepts (filter : Option (Entry → Bool)) (entry : Entry) : Bool :=
  (filter.map (· entry)).getD true

/-- The entries of the listing that the path filter accepts. -/
def listEntries (ref : Text) (pathFilter : Option (Entry → Bool)) (treeOid : Text)
    (listed : Answer) : Except ReadResult (List Entry) :=
  if listed.status ≠ some 0 then
    .error (.unread .unavailable [{
      code :=
        if listed.timedOut then js "REF_TREE_LIST_TIMEOUT"
        else if CommandError.overflow listed.error then js "REF_TREE_LIST_OVERFLOW"
        else js "REF_TREE_LIST_FAILED"
      message := js "Git could not list lifecycle state at '" ++ ref ++ js "'."
      details := refDetails ref }] 0)
  else
    let rows := ((listed.stdout.toText.splitOn 0).filter (· ≠ [])).map
      (parseRow pathFilter.isSome treeOid)
    let entries := (rows.filterMap id).filter (accepts pathFilter)
    let errors := (rows.filter Option.isNone).map fun _ => {
      code := js "REF_TREE_LIST_INVALID"
      message := js "Git returned an invalid tree entry at '" ++ ref ++ js "'."
      details := refDetails ref }
    if errors ≠ [] then .error (.unread .unavailable errors entries.length) else .ok entries

/-! ## The sizes, where the listing has none -/

/-- `list.slice(0, n)`, `list.slice(n, 2 * n)` and so on, with fuel. -/
def slicesFrom {α : Type} (n : Nat) : Nat → List α → List (List α)
  | 0, _ => []
  | fuel + 1, l => if l.isEmpty then [] else l.take n :: slicesFrom n fuel (l.drop n)

def slices {α : Type} (n : Nat) (l : List α) : List (List α) := slicesFrom n l.length l

/-- `size` of each entry of a group, from the line that answers for it. -/
def sizeEntries (ref : Text) : List Entry → List Text → Except Diagnostic (List Entry)
  | entry :: rest, line :: lines =>
      let invalid : Diagnostic := {
        code := js "REF_TREE_SIZE_INVALID"
        message := js "Git returned an invalid lifecycle-state object size at '" ++ ref ++ js "'."
        details := refDetails ref ++ [(js "path", .str entry.file)] }
      match line.splitOn 0x20 with
      | oid :: type :: rawSize :: _ =>
          if oid ≠ entry.oid ∨ type ≠ entry.type then .error invalid
          else
            match sizeOf? rawSize with
            | none => .error invalid
            | some size =>
                (sizeEntries ref rest lines).map ({ entry with size := some size } :: ·)
      | _ => .error invalid
  | _, _ => .ok []

/-- The groups of the listing, each checked by one process. -/
def sizeGroups (runCommand : RunCommand) (ref : Text) :
    Nat → List (List Entry) → Except Diagnostic (List Entry)
  | _, [] => .ok []
  | call, group :: rest =>
      let checked := runCommand call
        (checkCommand (group.map Entry.oid) (group.length * 128 + 1024))
      if checked.status ≠ some 0 then .error {
        code :=
          if checked.timedOut then js "REF_TREE_SIZE_TIMEOUT"
          else if CommandError.overflow checked.error then js "REF_TREE_SIZE_OVERFLOW"
          else js "REF_TREE_SIZE_FAILED"
        message := js "Git could not size lifecycle state objects at '" ++ ref ++ js "'."
        details := refDetails ref }
      else
        let lines := splitLines (trimEnd checked.stdout.toText)
        if lines.length ≠ group.length then .error {
          code := js "REF_TREE_SIZE_INVALID"
          message := js "Git returned incomplete lifecycle-state object sizes at '" ++ ref
            ++ js "'."
          details := refDetails ref }
        else do
          let sized ← sizeEntries ref group lines
          let others ← sizeGroups runCommand ref (call + 1) rest
          return sized ++ others

/-- The entries with their sizes; calls from 3 on are the checks. -/
def sizeListing (runCommand : RunCommand) (ref : Text) (deferredSizes : Bool)
    (listed : List Entry) : Except ReadResult (List Entry) :=
  if deferredSizes then
    match sizeGroups runCommand ref 3 (slices 512 listed) with
    | .ok sized => .ok sized
    | .error error => .error (.unread .unavailable [error] listed.length)
  else .ok listed

/-! ## Reading the blobs -/

section ReadRefTree

variable (createHash : Algorithm → Bytes → Text) (runCommand : RunCommand)

/-- The text of a blob among the answers of `readObjectsWithoutSizing`. -/
def blobText (answers : List (Text × ObjectAnswer)) (oid : Text) : Option Text :=
  match mapGet answers oid with
  | some (.ok _ type _ (some body)) => if type = js "blob" then some (utf8Text body) else none
  | _ => none

/-- The read without sizes, where the batch gives a blob for every entry. -/
def unsizedContents (limits : Limits) (listed : List Entry) : Option (List (Text × Text)) :=
  match readObjectsWithoutSizing createHash runCommand limits 2
      (distinct (listed.map Entry.oid)) with
  | none => none
  | some answers =>
      if listed.all fun entry => (blobText answers entry.oid).isSome then
        some (listed.map fun entry => (entry.file, (blobText answers entry.oid).getD [])).reverse
      else none

/-- The entries that are read, unless one of them is too large. -/
def admitEntries (filter : Option (Entry → Bool)) (limits : Limits) (sized : List Entry) :
    Except ReadResult (List Entry) :=
  let accepted := sized.filter (accepts filter)
  let tooLarge (entry : Entry) : Bool := limits.maxObjectBytes < entry.bytes
  let entries := accepted.filter fun entry => !tooLarge entry
  let errors := (accepted.filter tooLarge).map fun entry => {
    code := js "REF_TREE_OBJECT_TOO_LARGE"
    message := entry.file ++ js " exceeds the lifecycle-state object limit."
    details := [(js "path", .str entry.file), (js "bytes", sizeValue entry.bytes),
      (js "maximumBytes", .num (.ofInt limits.maxObjectBytes))] }
  if errors ≠ [] then .error (.unread .unavailable errors entries.length) else .ok entries

/-- The diagnostic of a process that failed. -/
def batchFailure (ref : Text) (batch : Answer) : List Diagnostic :=
  if batch.status ≠ some 0 then [{
    code :=
      if batch.timedOut then js "REF_TREE_BATCH_TIMEOUT"
      else if CommandError.overflow batch.error then js "REF_TREE_BATCH_OVERFLOW"
      else js "REF_TREE_BATCH_FAILED"
    message := js "Git could not read all lifecycle state objects at '" ++ ref ++ js "'."
    details := refDetails ref }]
  else []

/-- The groups of the read, one process each, with what was read before. -/
def readGroups (ref : Text) (objectsRequested : Nat) :
    Nat → List (List Entry) → List (Text × Text) → Nat → Except ReadResult ReadResult
  | _, [], contents, read =>
      .ok { status := .ok, contents, errors := [], objectsRequested, objectsRead := read }
  | call, group :: rest, contents, read =>
      let expectedBytes : Nat := (group.map Entry.bytes).sum
      let batch := runCommand call (batchCommand (group.map Entry.oid) expectedBytes)
      let decoded := parseBatch createHash batch.stdout.toBytes group
      let contents := decoded.1 ++ contents
      let read := read + (distinct (decoded.1.map Prod.fst)).length
      let errors := batchFailure ref batch ++ decoded.2
      if errors ≠ [] then .error {
        status := if read = 0 then .unavailable else .incomplete
        contents, errors, objectsRequested, objectsRead := read }
      else readGroups ref objectsRequested (call + 1) rest contents read

/-- The sized read of the admitted entries. -/
def readEntries (ref : Text) (limits : Limits) (call : Nat) (entries : List Entry) :
    Except ReadResult ReadResult :=
  if entries.isEmpty then .ok (.unread .ok [] 0)
  else
    readGroups createHash runCommand ref entries.length call
      (batches Entry.bytes (max 1 limits.maxBatchBytes) entries) [] 0

/-- The caller's part of a read. -/
structure ReadOptions where
  filter : Option (Entry → Bool) := none
  pathFilter : Option (Entry → Bool) := none
  limits : Limits := {}

/-- The read of the listed entries: in one process where that is enough, and
else in groups of bounded size, whose calls follow those of the checks. -/
def readListed (ref : Text) (options : ReadOptions) (listed : List Entry) :
    Except ReadResult ReadResult :=
  let unsized :=
    if options.pathFilter.isSome && options.filter.isNone && !listed.isEmpty
        && listed.all (·.type = js "blob") then
      unsizedContents createHash runCommand options.limits listed
    else none
  match unsized with
  | some contents => .ok {
      status := .ok, contents, errors := []
      objectsRequested := listed.length, objectsRead := listed.length }
  | none => do
      let sized ← sizeListing runCommand ref options.pathFilter.isSome listed
      let entries ← admitEntries options.filter options.limits sized
      readEntries createHash runCommand ref options.limits (3 + listed.length) entries

/-- `readRefTreeResult`, with an early exit as an error. -/
def readTree (ref : Text) (pathspecs : List Text) (options : ReadOptions) :
    Except ReadResult ReadResult := do
  let treeOid ← resolveTree ref (runCommand 0 (revParseCommand ref))
  let listed ← listEntries ref options.pathFilter treeOid
    (runCommand 1 (listCommand options.pathFilter.isSome treeOid pathspecs))
  readListed createHash runCommand ref options listed

/-- `readRefTreeResult`. -/
def readRefTreeResult (ref : Text) (pathspecs : List Text) (options : ReadOptions) : ReadResult :=
  match readTree createHash runCommand ref pathspecs options with
  | .ok observed => observed
  | .error exit => exit

/-! ## Every early exit says that the read is not whole -/

variable {createHash runCommand}

section Exits

variable {ref : Text} {exit : ReadResult}

theorem resolveTree_exit {verified : Answer} (h : resolveTree ref verified = .error exit) :
    exit.status ≠ .ok := by
  unfold resolveTree at h
  dsimp only at h
  split at h
  · obtain rfl := Except.error.inj h
    dsimp only [ReadResult.unread]
    split <;> nofun
  · split at h
    · cases h
    · obtain rfl := Except.error.inj h
      nofun

theorem listEntries_exit {pathFilter : Option (Entry → Bool)} {treeOid : Text} {listed : Answer}
    (h : listEntries ref pathFilter treeOid listed = .error exit) : exit.status ≠ .ok := by
  unfold listEntries at h
  dsimp only at h
  split at h
  · obtain rfl := Except.error.inj h
    nofun
  · split at h
    · obtain rfl := Except.error.inj h
      nofun
    · cases h

theorem sizeListing_exit {deferredSizes : Bool} {listed : List Entry}
    (h : sizeListing runCommand ref deferredSizes listed = .error exit) : exit.status ≠ .ok := by
  unfold sizeListing at h
  split at h
  · split at h
    · cases h
    · obtain rfl := Except.error.inj h
      nofun
  · cases h

theorem admitEntries_exit {filter : Option (Entry → Bool)} {limits : Limits} {sized : List Entry}
    (h : admitEntries filter limits sized = .error exit) : exit.status ≠ .ok := by
  unfold admitEntries at h
  dsimp only at h
  split_ifs at h
  obtain rfl := Except.error.inj h
  nofun

theorem readGroups_exit {objectsRequested call read : Nat} {groups : List (List Entry)}
    {contents : List (Text × Text)}
    (h : readGroups createHash runCommand ref objectsRequested call groups contents read
      = .error exit) : exit.status ≠ .ok := by
  induction groups generalizing call contents read with
  | nil => cases h
  | cons group rest ih =>
      rw [readGroups] at h
      split at h
      · obtain rfl := Except.error.inj h
        dsimp only
        split <;> nofun
      · exact ih h

theorem readEntries_exit {limits : Limits} {call : Nat} {entries : List Entry}
    (h : readEntries createHash runCommand ref limits call entries = .error exit) :
    exit.status ≠ .ok := by
  unfold readEntries at h
  split at h
  · cases h
  · exact readGroups_exit h

theorem readListed_exit {options : ReadOptions} {listed : List Entry}
    (h : readListed createHash runCommand ref options listed = .error exit) :
    exit.status ≠ .ok := by
  unfold readListed at h
  dsimp only at h
  split at h
  · cases h
  · rcases bind_eq_error h with hsized | ⟨sized, -, h⟩
    · exact sizeListing_exit hsized
    · rcases bind_eq_error h with hadmit | ⟨entries, -, h⟩
      · exact admitEntries_exit hadmit
      · exact readEntries_exit h

/-- **No early exit claims a complete read.** -/
theorem readTree_exit {pathspecs : List Text} {options : ReadOptions}
    (h : readTree createHash runCommand ref pathspecs options = .error exit) :
    exit.status ≠ .ok := by
  rcases bind_eq_error h with htree | ⟨treeOid, -, h⟩
  · exact resolveTree_exit htree
  · rcases bind_eq_error h with hlist | ⟨listed, -, h⟩
    · exact listEntries_exit hlist
    · exact readListed_exit h

end Exits

/-! ## What a complete read has read -/

/-- The text is that of a blob with the entry's ID. -/
def BlobText (createHash : Algorithm → Bytes → Text) (entry : Entry) (text : Text) : Prop :=
  ∃ body, text = utf8Text body ∧ Named createHash entry.oid (js "blob") body

theorem blobObject_ok {entry : Entry} {buffer rest : Bytes} {text : Text}
    (h : blobObject createHash entry buffer = .ok (text, rest)) : BlobText createHash entry text := by
  unfold blobObject at h
  dsimp only at h
  split at h
  · cases h
  · next line behind hline =>
    split at h
    · next oid type rawSize more hparts =>
      split at h
      · cases h
      · split at h
        · next size hsize =>
          split at h
          · cases h
          · split at h
            · cases h
            · next body behind' hbody =>
              split at h
              · cases h
              · next hhash =>
                obtain ⟨rfl, rfl⟩ := Prod.mk.inj (Except.ok.inj h)
                obtain ⟨rfl, -⟩ := takeBody_eq_some hbody
                exact ⟨body, rfl, not_not.mp hhash⟩
        · cases h
    · cases h

theorem parseBatch_ok {entries : List Entry} {buffer : Bytes} {contents : List (Text × Text)}
    (h : parseBatch createHash buffer entries = (contents, [])) :
    ∃ read, Reads Entry.file (BlobText createHash) entries read ∧ contents = read.reverse := by
  unfold parseBatch at h
  split at h
  · cases h
  · next contents' hwalk =>
    obtain ⟨rfl, -⟩ := Prod.mk.inj h
    obtain ⟨read, hread, rfl⟩ := walk_eq_ok
      (P := BlobText createHash) (fun _ _ _ _ => blobObject_ok) hwalk
    exact ⟨read, hread, List.append_nil _⟩
  · cases h

theorem readGroups_ok {ref : Text} {objectsRequested call read : Nat} {groups : List (List Entry)}
    {contents : List (Text × Text)} {observed : ReadResult}
    (h : readGroups createHash runCommand ref objectsRequested call groups contents read
      = .ok observed) :
    ∃ decoded, Reads Entry.file (BlobText createHash) groups.flatten decoded ∧
      observed.contents = decoded.reverse ++ contents := by
  induction groups generalizing call contents read with
  | nil =>
      obtain rfl := Except.ok.inj h
      exact ⟨[], .nil, rfl⟩
  | cons group rest ih =>
      rw [readGroups] at h
      split at h
      · cases h
      · next herrors =>
        generalize hparsed : parseBatch createHash _ group = parsed at h herrors
        obtain ⟨decoded, errors⟩ := parsed
        obtain ⟨-, rfl : errors = []⟩ := List.append_eq_nil_iff.mp (not_not.mp herrors)
        obtain ⟨first, hfirst, rfl⟩ := parseBatch_ok hparsed
        obtain ⟨others, hothers, heq⟩ := ih h
        refine ⟨first ++ others, ?_, ?_⟩
        · rw [List.flatten_cons]
          exact List.rel_append hfirst hothers
        · rw [heq, List.reverse_append, List.append_assoc]

/-! ### Sizing changes sizes only -/

/-- The second entry is the first one, with a size. -/
def Resized (entry sized : Entry) : Prop := sized = { entry with size := sized.size }

theorem slicesFrom_flatten {α : Type} {n : Nat} (hn : 0 < n) {fuel : Nat} {l : List α}
    (h : l.length ≤ fuel) : (slicesFrom n fuel l).flatten = l := by
  induction fuel generalizing l with
  | zero => rw [List.length_eq_zero_iff.mp (Nat.le_zero.mp h)]; rfl
  | succ fuel ih =>
      cases l with
      | nil => rfl
      | cons a l =>
          have hlen : ((a :: l).drop n).length ≤ fuel := by
            rw [List.length_drop]
            omega
          rw [slicesFrom, if_neg (by simp), List.flatten_cons, ih hlen, List.take_append_drop]

theorem sizeEntries_ok {ref : Text} {group sized : List Entry} {lines : List Text}
    (hlength : lines.length = group.length) (h : sizeEntries ref group lines = .ok sized) :
    List.Forall₂ Resized group sized := by
  induction group generalizing lines sized with
  | nil =>
      obtain rfl := Except.ok.inj h
      exact .nil
  | cons entry rest ih =>
      cases lines with
      | nil => cases hlength
      | cons line lines =>
          rw [sizeEntries] at h
          split at h
          · split at h
            · cases h
            · split at h
              · cases h
              · next size hsize =>
                cases hrest : sizeEntries ref rest lines with
                | error e => rw [hrest] at h; cases h
                | ok others =>
                    rw [hrest] at h
                    obtain rfl := Except.ok.inj h
                    exact .cons rfl (ih (Nat.succ.inj hlength) hrest)
          · cases h

theorem sizeGroups_ok {ref : Text} {call : Nat} {groups : List (List Entry)} {sized : List Entry}
    (h : sizeGroups runCommand ref call groups = .ok sized) :
    List.Forall₂ Resized groups.flatten sized := by
  induction groups generalizing call sized with
  | nil =>
      obtain rfl := Except.ok.inj h
      exact .nil
  | cons group rest ih =>
      rw [sizeGroups] at h
      dsimp only at h
      split at h
      · cases h
      · split at h
        · cases h
        · next hlength =>
          obtain ⟨first, hfirst, h⟩ := bind_eq_ok_iff.mp h
          obtain ⟨others, hothers, h⟩ := bind_eq_ok_iff.mp h
          obtain rfl := Except.ok.inj h
          rw [List.flatten_cons]
          exact List.rel_append (sizeEntries_ok (not_not.mp hlength) hfirst) (ih hothers)

theorem sizeListing_ok {ref : Text} {deferredSizes : Bool} {listed sized : List Entry}
    (h : sizeListing runCommand ref deferredSizes listed = .ok sized) :
    List.Forall₂ Resized listed sized := by
  unfold sizeListing at h
  split at h
  · split at h
    · next sized' hgroups =>
      obtain rfl := Except.ok.inj h
      have hall := sizeGroups_ok hgroups
      rwa [slices, slicesFrom_flatten (by omega) le_rfl] at hall
    · cases h
  · obtain rfl := Except.ok.inj h
    exact List.forall₂_same.mpr fun _ _ => rfl

/-- What was read for the sized entries was read for the listed ones. -/
theorem reads_of_resized {listed sized : List Entry} {read : List (Text × Text)}
    (h : List.Forall₂ Resized listed sized)
    (hread : Reads Entry.file (BlobText createHash) sized read) :
    Reads Entry.file (BlobText createHash) listed read := by
  unfold Reads at hread ⊢
  induction h generalizing read with
  | nil => exact hread
  | cons hhead _ ih =>
      cases hread with
      | cons hfirst hrest =>
          rw [hhead] at hfirst
          exact .cons hfirst (ih hrest)

theorem admitEntries_ok {filter : Option (Entry → Bool)} {limits : Limits}
    {sized entries : List Entry} (h : admitEntries filter limits sized = .ok entries) :
    entries = sized.filter (accepts filter) := by
  unfold admitEntries at h
  dsimp only at h
  split at h
  · cases h
  · next herrors =>
    obtain rfl := Except.ok.inj h
    have hnone := List.map_eq_nil_iff.mp (not_not.mp herrors)
    rw [List.filter_eq_nil_iff] at hnone
    exact List.filter_eq_self.mpr fun entry hmem => by simpa using hnone entry hmem

theorem unsizedContents_eq_some {limits : Limits} {listed : List Entry}
    {contents : List (Text × Text)}
    (h : unsizedContents createHash runCommand limits listed = some contents) :
    ∃ read, Reads Entry.file (BlobText createHash) listed read ∧ contents = read.reverse := by
  unfold unsizedContents at h
  split at h
  · cases h
  · next answers hanswers =>
    split at h
    · next hall =>
      obtain rfl := Option.some.inj h
      obtain ⟨-, read, hread, rfl⟩ := readObjectsWithoutSizing_eq_some hanswers
      refine ⟨_, ?_, rfl⟩
      unfold Reads
      rw [List.forall₂_map_right_iff, List.forall₂_same]
      intro entry hmem
      refine ⟨rfl, ?_⟩
      -- the answer under an ID is an object of that ID, and it is a blob
      have hoid : entry.oid ∈ distinct (listed.map Entry.oid) :=
        mem_distinct.mpr (List.mem_map_of_mem hmem)
      have hkeys : ((distinct (listed.map Entry.oid)).map id).Nodup := by
        rw [List.map_id]
        exact nodup_distinct _
      obtain ⟨answer, hanswer, type, body, rfl, hnamed⟩ := mapGet_read hread hkeys hoid
      have hblob := List.all_eq_true.mp hall entry hmem
      rw [id] at hanswer
      rw [blobText, hanswer] at hblob ⊢
      dsimp only at hblob ⊢
      split at hblob
      · next htype =>
        rw [if_pos htype]
        exact ⟨body, rfl, htype ▸ hnamed⟩
      · cases hblob
    · cases h

/-! ## Complete reads -/

/-- The entries that a read is about: the rows of the listing that pass the
path filter and, at the size that Git gives them, the filter. -/
def Accepted (runCommand : RunCommand) (ref : Text) (pathspecs : List Text) (options : ReadOptions)
    (entries : List Entry) : Prop :=
  ∃ treeOid listed,
    resolveTree ref (runCommand 0 (revParseCommand ref)) = .ok treeOid ∧
    listEntries ref options.pathFilter treeOid
      (runCommand 1 (listCommand options.pathFilter.isSome treeOid pathspecs)) = .ok listed ∧
    match options.filter with
    | none => entries = listed
    | some filter => ∃ sized,
        sizeListing runCommand ref options.pathFilter.isSome listed = .ok sized ∧
          entries = sized.filter filter

/-- The map has the paths of the entries, and where these are distinct, under
each of them the text of a blob with the ID that is listed there. -/
def Complete (createHash : Algorithm → Bytes → Text) (entries : List Entry)
    (contents : List (Text × Text)) : Prop :=
  (∀ file, (∃ text, mapGet contents file = some text) ↔ ∃ entry ∈ entries, entry.file = file) ∧
    ((entries.map Entry.file).Nodup → ∀ entry ∈ entries, ∃ body,
      mapGet contents entry.file = some (utf8Text body) ∧
        Named createHash entry.oid (js "blob") body)

theorem complete_of_reads {entries : List Entry} {read : List (Text × Text)}
    (h : Reads Entry.file (BlobText createHash) entries read) :
    Complete createHash entries read.reverse := by
  refine ⟨fun file => exists_mapGet_read_iff h, fun hfiles entry hmem => ?_⟩
  obtain ⟨text, htext, body, rfl, hnamed⟩ := mapGet_read h hfiles hmem
  exact ⟨body, htext, hnamed⟩

theorem readEntries_ok {ref : Text} {limits : Limits} {call : Nat} {entries : List Entry}
    {observed : ReadResult}
    (h : readEntries createHash runCommand ref limits call entries = .ok observed) :
    ∃ read, Reads Entry.file (BlobText createHash) entries read ∧
      observed.contents = read.reverse := by
  unfold readEntries at h
  split at h
  · next hempty =>
    obtain rfl := Except.ok.inj h
    obtain rfl := List.isEmpty_iff.mp hempty
    exact ⟨[], .nil, rfl⟩
  · obtain ⟨read, hread, hcontents⟩ := readGroups_ok h
    rw [batches_flatten] at hread
    exact ⟨read, hread, hcontents.trans (List.append_nil _)⟩

/-- What a read of the listed entries holds when it ends. -/
theorem readListed_ok {ref : Text} {options : ReadOptions} {listed : List Entry}
    {observed : ReadResult}
    (h : readListed createHash runCommand ref options listed = .ok observed) :
    ∃ entries, (match options.filter with
      | none => entries = listed
      | some filter => ∃ sized,
          sizeListing runCommand ref options.pathFilter.isSome listed = .ok sized ∧
            entries = sized.filter filter) ∧
      Complete createHash entries observed.contents := by
  unfold readListed at h
  dsimp only at h
  split at h
  · next contents hunsized =>
    obtain rfl := Except.ok.inj h
    split at hunsized
    · next hfast =>
      simp only [Bool.and_eq_true, Option.isNone_iff_eq_none] at hfast
      obtain ⟨⟨⟨-, hfilter⟩, -⟩, -⟩ := hfast
      obtain ⟨read, hread, rfl⟩ := unsizedContents_eq_some hunsized
      exact ⟨listed, by rw [hfilter], complete_of_reads hread⟩
    · cases hunsized
  · obtain ⟨sized, hsized, h⟩ := bind_eq_ok_iff.mp h
    obtain ⟨entries, hentries, h⟩ := bind_eq_ok_iff.mp h
    obtain rfl := admitEntries_ok hentries
    obtain ⟨read, hread, hcontents⟩ := readEntries_ok h
    rw [hcontents]
    cases hfilter : options.filter with
    | none =>
        have hall : sized.filter (accepts none) = sized := List.filter_eq_self.mpr fun _ _ => rfl
        rw [hfilter, hall] at hread
        exact ⟨listed, rfl, complete_of_reads (reads_of_resized (sizeListing_ok hsized) hread)⟩
    | some filter =>
        rw [hfilter] at hread
        exact ⟨_, ⟨sized, hsized, rfl⟩, complete_of_reads hread⟩

theorem readRefTreeResult_ok {ref : Text} {pathspecs : List Text} {options : ReadOptions}
    (h : (readRefTreeResult createHash runCommand ref pathspecs options).status = .ok) :
    ∃ entries, Accepted runCommand ref pathspecs options entries ∧
      Complete createHash entries
        (readRefTreeResult createHash runCommand ref pathspecs options).contents := by
  unfold readRefTreeResult at h ⊢
  split at h
  · next observed hread =>
    obtain ⟨treeOid, htree, hread'⟩ := bind_eq_ok_iff.mp hread
    obtain ⟨listed, hlisted, hread'⟩ := bind_eq_ok_iff.mp hread'
    obtain ⟨entries, hentries, hcomplete⟩ := readListed_ok hread'
    exact ⟨entries, ⟨treeOid, listed, htree, hlisted, hentries⟩, hcomplete⟩
  · next exit hexit => exact absurd h (readTree_exit hexit)

/-- **A complete read is never claimed from incomplete answers of Git.**
Whatever the commands answer: `readRefTreeResult` is `ok` only with a map of
exactly the accepted paths, each with the text of octets that hash to the ID
listed for it; and the octets that `readObjectsBatch` hands out for a name hash
to the ID that Git reported for that name. -/
theorem reads_verified (createHash : Algorithm → Bytes → Text) (runCommand : RunCommand) :
    (∀ ref pathspecs options,
      (readRefTreeResult createHash runCommand ref pathspecs options).status = .ok →
        ∃ entries, Accepted runCommand ref pathspecs options entries ∧
          Complete createHash entries
            (readRefTreeResult createHash runCommand ref pathspecs options).contents) ∧
    (∀ limits specs checkOnly answers,
      readObjectsBatch createHash runCommand limits specs checkOnly = some answers →
        ∀ spec oid type size bytes, mapGet answers spec = some (.ok oid type size bytes) →
          ReportedFor runCommand (distinct specs) spec oid ∧
          if checkOnly then bytes = none
          else ∃ body, bytes = some body ∧ ∃ spec' type',
            mapGet answers spec' = some (.ok oid type' body.length (some body)) ∧
              Named createHash oid type' body) :=
  ⟨fun _ _ _ h => readRefTreeResult_ok h, fun _ _ _ _ h _ _ _ _ _ ha => readObjectsBatch_ok h ha⟩

end ReadRefTree

/-! A repository of SHA-256 objects that answers with the one record of a ref. -/

def sampleHash : Algorithm → Bytes → Text
  | .sha256 => sha256Hex
  | .sha1 => fun _ => []

def sampleBody : Bytes := textEncode (js "on\n")

def sampleId : Text := js "c4c5a80d6e5b8c11fee15c522ce573fa9d40c423915f9dabd76fe54f255fdda6"

def sampleTree : Text := List.replicate 64 0x61

def sampleGit : RunCommand := fun _ command =>
  let answer (stdout : Output) : Answer :=
    { status := some 0, stdout, stderr := .absent, timedOut := false, error := none }
  match command.args.head? with
  | some name =>
      if name = js "rev-parse" then answer (.text (sampleTree ++ js "\n"))
      else if name = js "ls-tree" then
        answer (.text (js "100644\tblob\t" ++ sampleId ++ js "\t3\tstate.json" ++ [0]))
      else
        answer (.buffer (textEncode (sampleId ++ js " blob 3\n") ++ sampleBody ++ [0x0A]))
  | none => answer .absent

theorem reads_verified_sample :
    (∃ entries, Accepted sampleGit (js "refs/heads/state") [] {} entries ∧
      Complete sampleHash entries
        (readRefTreeResult sampleHash sampleGit (js "refs/heads/state") [] {}).contents) ∧
    ReportedFor sampleGit (distinct [sampleId]) sampleId sampleId ∧
    ∃ body, some sampleBody = some body ∧ ∃ spec type,
      mapGet [(sampleId, ObjectAnswer.ok sampleId (js "blob") 3 (some sampleBody))] spec
        = some (.ok sampleId type body.length (some body)) ∧
      Named sampleHash sampleId type body :=
  ⟨(reads_verified sampleHash sampleGit).1 _ _ _ (by decide +kernel),
    (reads_verified sampleHash sampleGit).2 {} [sampleId] false _ (by decide +kernel)
      sampleId sampleId (js "blob") 3 (some sampleBody) (by decide +kernel)⟩

end Git

end SingularityFlow
