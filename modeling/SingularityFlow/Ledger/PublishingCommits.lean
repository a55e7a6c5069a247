/-
# The commits that published the intents

Which commit last touched an intent file was asked of Git file by file, with
`git log -1`.  One `git log --name-only` over the directories of the files is
to answer for all of them: the newest commit comes first, so the first commit
that mentions a path is the one that touched it last.

A history is the list of the commits that Git walks, newest first, each with
the paths it touched.  Git prints an ID on a line of its own, then the paths in
the scope of the walk, as `Git/PathNames` says.  Commit lines and path lines
are told apart by their shape alone.  Two things follow, and
`publishingCommits_exact_iff` says that there is nothing else:

* the shape that is looked for has 40 digits, so of a repository with IDs of 64
  digits no line is read as a commit and no path is mapped;
* lines are trimmed, so a path that blanks end is read as another one.
-/
import SingularityFlow.Git.Objects
import SingularityFlow.Git.PathNames

namespace SingularityFlow

open Ecma

namespace Ledger

open Git

/-! ## The walk that is asked for -/

/-- `path.posix.dirname`. -/
def dirname : Text → Text
  | [] => js "."
  | first :: rest =>
      -- the last segment is dropped with the slashes behind it, then one slash
      match (rest.reverse.dropWhile (· = 0x2F)).dropWhile (· ≠ 0x2F) with
      | [] => if first = 0x2F then js "/" else js "."
      | _ :: before => if first = 0x2F ∧ before = [] then js "//" else first :: before.reverse

/-- The pathspecs of the walk: the directories of the files, or the whole of
`singularity` where they would not fit. -/
def historyPaths (paths : Option (List Text)) : List Text :=
  let directories := match paths with
    | some files => distinct (files.map dirname)
    | none => [js "singularity"]
  if 16 * 1024 < 2 * (joinWith [0] directories).length then [js "singularity"] else directories

/-! ## Reading the walk -/

/-- `/^[0-9a-f]{40}$/`. -/
def isCommitLine (value : Text) : Bool := value.length = 40 && value.all isLowerHex

/-- The commit whose paths are being read, and what has been mapped. -/
structure Reading where
  commit : Option Text
  commits : List (Text × Text)

def readLine (reading : Reading) (line : Text) : Reading :=
  let value := trim line
  if value = [] then reading
  else if isCommitLine value then { reading with commit := some value }
  else
    match reading.commit with
    | some commit =>
        if (mapGet reading.commits value).isSome then reading
        else { reading with commits := mapSet reading.commits value commit }
    | none => reading

/-- `publishingCommits`; `gitLog` is the output of `git log --format=%H
--name-only` over some pathspecs, where it succeeds. -/
def publishingCommits (gitLog : List Text → Option Text) (paths : Option (List Text)) :
    List (Text × Text) :=
  match gitLog (historyPaths paths) with
  | none => []
  | some stdout => ((stdout.splitOn 0x0A).foldl readLine ⟨none, []⟩).commits

/-! ## What Git prints -/

structure LogCommit where
  id : Text
  paths : List Bytes

def LogCommit.touches (commit : LogCommit) (path : Text) : Bool := commit.paths.elem (textEncode path)

/-- The commits of a walk, newest first, in a repository of either object format. -/
structure History where
  commits : List LogCommit
  digits : Nat
  format : digits = 40 ∨ digits = 64
  ids : ∀ commit ∈ commits, commit.id.length = digits ∧ commit.id.all isLowerHex = true
  distinctIds : (commits.map LogCommit.id).Nodup

/-- `git log -1 --format=%H <ref> -- <path>`. -/
def History.newest (history : History) (path : Text) : Option Text :=
  (history.commits.find? (·.touches path)).map LogCommit.id

/-- The path of an intent file, in characters that Git does not quote. -/
structure IntentPath (path : Text) : Prop where
  below : js "singularity/" <+: path
  directory : js "/context/ledger-intents/" <:+: path
  extension : js ".json" <:+ path
  segments : ∀ segment ∈ path.splitOn 0x2F,
    segment ≠ [] ∧ segment ≠ js "." ∧ segment ≠ js ".."
  plain : ∀ u ∈ path, 0x20 ≤ u.toNat ∧ u.toNat < 0x7F ∧ u ≠ 0x22 ∧ u ≠ 0x5C

/-- A path that begins with `singularity`. -/
def Inside (path : Bytes) : Prop := textEncode (js "singularity") <+: path

/-- How Git matches a path with a pathspec, wildcards included: as far as the
walk relies on it. -/
structure Pathspecs where
  matching : Text → Bytes → Bool
  /-- A directory matches what is in it. -/
  directory : ∀ path, IntentPath path → matching (dirname path) (textEncode path) = true
  /-- A pathspec matches nothing outside of its leading directory. -/
  inside : ∀ path other, IntentPath path → matching (dirname path) other = true → Inside other
  whole : ∀ path, IntentPath path → matching (js "singularity") (textEncode path) = true
  wholeInside : ∀ other, matching (js "singularity") other = true → Inside other

section Printed

variable (git : Pathspecs) (pathspecs : List Text)

/-- The paths of a commit that are in the scope of the walk; without pathspecs
they all are. -/
def LogCommit.scope (commit : LogCommit) : List Bytes :=
  commit.paths.filter fun path => pathspecs.isEmpty || pathspecs.any (git.matching · path)

/-- A commit that touched nothing in the scope is not shown. -/
def LogCommit.block (commit : LogCommit) : List Text :=
  if commit.scope git pathspecs = [] then []
  else commit.id :: [] :: (commit.scope git pathspecs).map printedName

/-- `git log --format=%H --name-only <ref> -- <pathspecs>`. -/
def History.log (history : History) : Text :=
  (history.commits.flatMap (LogCommit.block git pathspecs)).flatMap (· ++ [0x0A])

end Printed

/-! ## One walk for one walk per path -/

/-- The map answers for each path as a walk of its own would, and maps nothing
but paths, each to the newest commit that touched it. -/
structure Exact (history : History) (paths : List Text) (commits : List (Text × Text)) : Prop where
  answers : ∀ path ∈ paths, mapGet commits path = history.newest path
  nothingElse : ∀ text commit, mapGet commits text = some commit →
    history.newest text = some commit

/-- The text that the line of a path is read as. -/
def readName (path : Bytes) : Text := trim (printedName path)

/-- A path whose line is read as some other text: blanks end it, or Git quotes it. -/
def Misread (path : Bytes) : Prop := textEncode (readName path) ≠ path

instance (path : Bytes) : Decidable (Misread path) := inferInstanceAs (Decidable (_ ≠ _))

/-- The files that a caller asks for: those of one Story, of which there is at
least one, or, without a selection, all of them. -/
def Asked (selection : Option (List Text)) (paths : List Text) : Prop :=
  selection = none ∨ (selection = some paths ∧ paths ≠ [])

/-- Where a misread path is the first to be read as some text, its commit
touched the path of that name too, and no newer commit did. -/
def Harmless (git : Pathspecs) (pathspecs : List Text) (history : History) : Prop :=
  ∀ newer commit older, history.commits = newer ++ commit :: older →
    ∀ path ∈ commit.scope git pathspecs, Misread path →
      (∀ other ∈ newer, ∀ path' ∈ other.scope git pathspecs, readName path' ≠ readName path) →
      commit.touches (readName path) = true ∧
        ∀ other ∈ newer, other.touches (readName path) = false

/-! ## The lines of the walk -/

theorem splitOn_lines {lines : List Text} (h : ∀ line ∈ lines, (0x0A : UInt16) ∉ line) :
    (lines.flatMap (· ++ [0x0A])).splitOn 0x0A = lines ++ [[]] := by
  induction lines with
  | nil => rfl
  | cons line lines ih =>
      obtain ⟨hline, hlines⟩ := List.forall_mem_cons.mp h
      rw [List.flatMap_cons, List.append_assoc, List.singleton_append,
        List.splitOn_append_cons_self_of_not_mem hline, ih hlines, List.cons_append]

/-- An object ID is trimmed as it stands. -/
theorem trim_of_lowerHex {id : Text} (h : id.all isLowerHex = true) : trim id = id := by
  refine trim_of_forall fun u hu => ?_
  have hhex := List.all_eq_true.mp h u hu
  simp only [isLowerHex, isDigit, Bool.or_eq_true, Bool.and_eq_true, decide_eq_true_eq] at hhex
  exact isTrimmed_of_printable (by omega) (by omega)

/-- The name of a path below `singularity` begins as no commit ID does. -/
theorem readName_cons {path : Bytes} (h : Inside path) :
    ∃ u rest, readName path = u :: rest ∧ isLowerHex u = false := by
  obtain ⟨rest, rfl⟩ := h
  obtain ⟨tail, hhead⟩ : ∃ tail, textEncode (js "singularity") = 0x73 :: tail := ⟨_, rfl⟩
  rw [hhead, List.cons_append]
  unfold readName
  by_cases hplain : IsPlain (0x73 :: (tail ++ rest))
  · obtain ⟨t, ht⟩ := trim_cons (u := unitOf 0x73) (by decide) ((tail ++ rest).map unitOf)
    exact ⟨_, t, by rw [printedName_plain hplain, List.map_cons, ht], by decide⟩
  · obtain ⟨t, ht⟩ := trim_cons (u := 0x22) (by decide)
      ((0x73 :: (tail ++ rest)).flatMap quoteByte ++ [0x22])
    exact ⟨_, t, by rw [printedName_quoted hplain, ht], by decide⟩

theorem isCommitLine_readName {path : Bytes} (h : Inside path) :
    isCommitLine (readName path) = false := by
  obtain ⟨u, rest, hname, hhex⟩ := readName_cons h
  rw [hname, isCommitLine, List.all_cons, hhex, Bool.false_and, Bool.and_false]

theorem readName_ne_nil {path : Bytes} (h : Inside path) : readName path ≠ [] := by
  obtain ⟨u, rest, hname, -⟩ := readName_cons h
  rw [hname]
  exact List.cons_ne_nil u rest

/-! ## Reading a block -/

@[simp] theorem readLine_nil (reading : Reading) : readLine reading [] = reading := rfl

/-- A line that is read as a path. -/
theorem readLine_name {path : Bytes} (h : Inside path) (reading : Reading) :
    readLine reading (printedName path) =
      match reading.commit with
      | some commit =>
          if (mapGet reading.commits (readName path)).isSome then reading
          else { reading with commits := mapSet reading.commits (readName path) commit }
      | none => reading := by
  rw [readLine, ← readName, if_neg (readName_ne_nil h), isCommitLine_readName h]
  rfl

/-- The lines of paths behind the line of a commit: what is not mapped yet is
mapped to this commit. -/
theorem mapGet_readNames {paths : List Bytes} (h : ∀ path ∈ paths, Inside path) (commit : Text)
    (commits : List (Text × Text)) :
    ∃ commits', (paths.map printedName).foldl readLine ⟨some commit, commits⟩
        = ⟨some commit, commits'⟩ ∧
      ∀ text, mapGet commits' text
        = (mapGet commits text).or (if text ∈ paths.map readName then some commit else none) := by
  induction paths generalizing commits with
  | nil => exact ⟨commits, rfl, fun text => by simp⟩
  | cons path paths ih =>
      obtain ⟨hpath, hpaths⟩ := List.forall_mem_cons.mp h
      rw [List.map_cons, List.foldl_cons, readLine_name hpath]
      dsimp only
      split
      · next hknown =>
        obtain ⟨commits', hfold, hget⟩ := ih hpaths commits
        refine ⟨commits', hfold, fun text => ?_⟩
        rw [hget, List.map_cons]
        by_cases htext : text = readName path
        · obtain ⟨value, hvalue⟩ := Option.isSome_iff_exists.mp hknown
          rw [htext, hvalue, Option.some_or, Option.some_or]
        · simp only [List.mem_cons, htext, false_or]
      · next hnew =>
        obtain ⟨commits', hfold, hget⟩ := ih hpaths (mapSet commits (readName path) commit)
        refine ⟨commits', hfold, fun text => ?_⟩
        rw [hget, List.map_cons]
        by_cases htext : text = readName path
        · rw [Option.not_isSome_iff_eq_none] at hnew
          rw [htext, hnew, mapGet_mapSet_self, Option.some_or, Option.none_or,
            if_pos List.mem_cons_self]
        · rw [mapGet_mapSet_of_ne htext]
          simp only [List.mem_cons, htext, false_or]

/-- Without a line that is read as a commit, nothing is mapped. -/
theorem readLines_uncommitted {lines : List Text}
    (h : ∀ line ∈ lines, isCommitLine (trim line) = false) (commits : List (Text × Text)) :
    lines.foldl readLine ⟨none, commits⟩ = ⟨none, commits⟩ := by
  induction lines with
  | nil => rfl
  | cons line lines ih =>
      obtain ⟨hline, hlines⟩ := List.forall_mem_cons.mp h
      have hread : readLine ⟨none, commits⟩ line = ⟨none, commits⟩ := by
        rw [readLine, hline]
        split <;> rfl
      rw [List.foldl_cons, hread, ih hlines]

/-! ## Reading a history -/

section Walk

variable {git : Pathspecs} {pathspecs : List Text}

/-- A commit in whose block some line is read as the text. -/
def LogCommit.reads (git : Pathspecs) (pathspecs : List Text) (commit : LogCommit) (text : Text) : Bool :=
  ((commit.scope git pathspecs).map readName).elem text

theorem reads_iff {commit : LogCommit} {text : Text} :
    commit.reads git pathspecs text = true ↔
      ∃ path ∈ commit.scope git pathspecs, readName path = text := by
  rw [LogCommit.reads, List.elem_eq_mem, decide_eq_true_eq, List.mem_map]

/-- **First mention wins**: a text is mapped to the first commit in whose block
a line is read so. -/
theorem mapGet_readBlocks {commits : List LogCommit}
    (hids : ∀ commit ∈ commits, isCommitLine commit.id = true)
    (hscope : ∀ commit ∈ commits, ∀ path ∈ commit.scope git pathspecs, Inside path)
    (reading : Reading) (text : Text) :
    mapGet ((commits.flatMap (LogCommit.block git pathspecs)).foldl readLine reading).commits text
      = (mapGet reading.commits text).or
          ((commits.find? (·.reads git pathspecs text)).map LogCommit.id) := by
  induction commits generalizing reading with
  | nil => simp
  | cons commit commits ih =>
      obtain ⟨hid, hids⟩ := List.forall_mem_cons.mp hids
      obtain ⟨hnames, hscope⟩ := List.forall_mem_cons.mp hscope
      rw [List.flatMap_cons, List.foldl_append, ih hids hscope, List.find?_cons]
      unfold LogCommit.block
      split
      · next hempty =>
        have hreads : commit.reads git pathspecs text = false := by rw [LogCommit.reads, hempty]; rfl
        rw [hreads, List.foldl_nil]
      · have htrim : trim commit.id = commit.id := by
          rw [isCommitLine, Bool.and_eq_true] at hid
          exact trim_of_lowerHex hid.2
        have hne : commit.id ≠ [] := by
          rintro hnil
          rw [hnil] at hid
          cases hid
        have hline : readLine reading commit.id = { reading with commit := some commit.id } := by
          rw [readLine, htrim, if_neg hne, if_pos hid]
        obtain ⟨commits', hfold, hget⟩ := mapGet_readNames hnames commit.id reading.commits
        rw [List.foldl_cons, List.foldl_cons, hline, readLine_nil, hfold, hget, LogCommit.reads,
          List.elem_eq_mem, Option.or_assoc]
        split
        · next hmem => rw [Option.some_or, decide_eq_true hmem]; rfl
        · next hmem => rw [Option.none_or, decide_eq_false hmem]

/-- The lines of a history are split as Git joined them. -/
theorem splitOn_log (history : History) :
    (history.log git pathspecs).splitOn 0x0A
      = history.commits.flatMap (LogCommit.block git pathspecs) ++ [[]] := by
  refine splitOn_lines fun line hline => ?_
  obtain ⟨commit, hcommit, hline⟩ := List.mem_flatMap.mp hline
  unfold LogCommit.block at hline
  split at hline
  · cases hline
  · simp only [List.mem_cons, List.mem_map] at hline
    rcases hline with rfl | rfl | ⟨path, -, rfl⟩
    · intro hfeed
      have hhex := List.all_eq_true.mp (history.ids commit hcommit).2 _ hfeed
      exact absurd hhex (by decide)
    · exact List.not_mem_nil
    · exact lineFeed_notMem_printedName path

end Walk

section Scope

variable {selection : Option (List Text)} {paths : List Text}

theorem eq_of_mem_historyPaths (hasked : Asked selection paths) {pathspec : Text}
    (h : pathspec ∈ historyPaths selection) :
    pathspec = js "singularity" ∨ ∃ path ∈ paths, pathspec = dirname path := by
  unfold historyPaths at h
  rcases hasked with rfl | ⟨rfl, -⟩
  · rw [ite_self] at h
    exact .inl (List.mem_singleton.mp h)
  · dsimp only at h
    split_ifs at h
    · exact .inl (List.mem_singleton.mp h)
    · obtain ⟨path, hpath, rfl⟩ := List.mem_map.mp (mem_distinct.mp h)
      exact .inr ⟨path, hpath, rfl⟩

theorem exists_mem_historyPaths (hasked : Asked selection paths) {path : Text} (h : path ∈ paths) :
    js "singularity" ∈ historyPaths selection ∨ dirname path ∈ historyPaths selection := by
  unfold historyPaths
  rcases hasked with rfl | ⟨rfl, -⟩
  · rw [ite_self]
    exact .inl List.mem_cons_self
  · dsimp only
    split_ifs
    · exact .inl List.mem_cons_self
    · exact .inr (mem_distinct.mpr (List.mem_map_of_mem h))

theorem historyPaths_ne_nil (hasked : Asked selection paths) : historyPaths selection ≠ [] := by
  rcases hasked with rfl | ⟨rfl, hne⟩
  · decide
  · obtain ⟨path, hpath⟩ := List.exists_mem_of_ne_nil paths hne
    rcases exists_mem_historyPaths (.inr ⟨rfl, hne⟩) hpath with h | h <;> exact List.ne_nil_of_mem h

variable (git : Pathspecs) (hpaths : ∀ path ∈ paths, IntentPath path)
  (hasked : Asked selection paths)
include hpaths hasked

/-- The walk shows nothing outside of `singularity`. -/
theorem below_of_mem_scope {commit : LogCommit} {path : Bytes}
    (h : path ∈ commit.scope git (historyPaths selection)) : Inside path := by
  have hmatch := (List.mem_filter.mp h).2
  rw [Bool.or_eq_true, List.isEmpty_iff, List.any_eq_true] at hmatch
  rcases hmatch with hnil | ⟨pathspec, hpathspec, hmatch⟩
  · exact absurd hnil (historyPaths_ne_nil hasked)
  · rcases eq_of_mem_historyPaths hasked hpathspec with rfl | ⟨asked, hpath, rfl⟩
    · exact git.wholeInside path hmatch
    · exact git.inside asked path (hpaths asked hpath) hmatch

/-- The walk shows every commit that touched one of the files. -/
theorem mem_scope_of_touches {commit : LogCommit} {path : Text} (hpath : path ∈ paths)
    (h : commit.touches path = true) :
    textEncode path ∈ commit.scope git (historyPaths selection) := by
  rw [LogCommit.touches, List.elem_eq_mem, decide_eq_true_eq] at h
  refine List.mem_filter.mpr ⟨h, ?_⟩
  rw [Bool.or_eq_true, List.any_eq_true]
  right
  rcases exists_mem_historyPaths hasked hpath with hspec | hspec
  · exact ⟨_, hspec, git.whole path (hpaths path hpath)⟩
  · exact ⟨_, hspec, git.directory path (hpaths path hpath)⟩

end Scope

/-! ## The paths of intents -/

theorem IntentPath.printable {path : Text} (h : IntentPath path) : ∀ u ∈ path, u.toNat < 0x7F :=
  fun u hu => (h.plain u hu).2.1

/-- The line of an intent file is read as its path. -/
theorem readName_intent {path : Text} (h : IntentPath path) : readName (textEncode path) = path := by
  have hencode := textEncode_printable h.printable
  have hplain : IsPlain (path.map octetOf) := fun b hb => by
    obtain ⟨u, hu, rfl⟩ := List.mem_map.mp hb
    obtain ⟨hlow, hhigh, hquote, hslash⟩ := h.plain u hu
    have hquote : u.toNat ≠ 0x22 := fun h => hquote (UInt16.toNat_inj.mp h)
    have hslash : u.toNat ≠ 0x5C := fun h => hslash (UInt16.toNat_inj.mp h)
    rw [isQuotedByte, octetOf, toNat_ofNat_uint8 (by omega)]
    simp only [Bool.or_eq_false_iff, decide_eq_false_iff_not]
    omega
  have hprinted : printedName (path.map octetOf) = path := by
    rw [printedName_plain hplain, List.map_map]
    exact (List.map_congr_left fun u hu => unitOf_octetOf (h.printable u hu)).trans
      (List.map_id path)
  rw [readName, hencode, hprinted]
  obtain ⟨rest, hrest⟩ := h.below
  obtain ⟨front, hfront⟩ := h.extension
  refine trim_of_ends (fun u hu => ?_) fun u hu => ?_
  · rw [← hrest] at hu
    obtain rfl := Option.some.inj hu
    decide
  · rw [← hfront, List.getLast?_append_of_ne_nil _ (by decide)] at hu
    obtain rfl := Option.some.inj hu
    decide

/-- The directory of a file is what stands before its last slash. -/
theorem dirname_intent {path : Text} (h : IntentPath path) :
    ∃ base, path = dirname path ++ 0x2F :: base := by
  obtain ⟨behind, hbelow⟩ := h.below
  obtain ⟨front, hfront⟩ := h.extension
  obtain ⟨rest, rfl, hslash⟩ : ∃ rest, path = 0x73 :: rest ∧ (0x2F : UInt16) ∈ rest :=
    ⟨_, hbelow.symm, List.mem_append_left _ (by decide)⟩
  have hlast : rest.reverse.dropWhile (· = 0x2F) = rest.reverse := by
    rcases List.eq_nil_or_concat rest with rfl | ⟨init, u, rfl⟩
    · rfl
    · obtain rfl : u = 0x6E := by
        have hends := congrArg List.getLast? hfront
        rw [List.getLast?_append_of_ne_nil _ (by decide), List.concat_eq_append, ← List.cons_append,
          List.getLast?_concat] at hends
        exact (Option.some.inj hends).symm
      rw [List.concat_eq_append, List.reverse_append]
      exact List.dropWhile_cons_of_neg (by decide)
  cases hdrop : rest.reverse.dropWhile (· ≠ 0x2F) with
  | nil =>
      have hnone := List.dropWhile_eq_nil_iff.mp hdrop _ (List.mem_reverse.mpr hslash)
      exact absurd hnone (by decide)
  | cons u before =>
      have hhead := List.head?_dropWhile_not (fun v : UInt16 => decide (v ≠ 0x2F)) rest.reverse
      rw [hdrop] at hhead
      obtain rfl : u = 0x2F := by simpa using hhead
      refine ⟨(rest.reverse.takeWhile (· ≠ 0x2F)).reverse, ?_⟩
      have hsplit : rest = before.reverse ++ 0x2F :: (rest.reverse.takeWhile (· ≠ 0x2F)).reverse := by
        have hreverse := congrArg List.reverse
          (List.takeWhile_append_dropWhile (p := (· ≠ 0x2F)) (l := rest.reverse))
        rw [hdrop, List.reverse_append, List.reverse_cons, List.reverse_reverse,
          List.append_assoc, List.singleton_append] at hreverse
        exact hreverse.symm
      have hdirname : dirname (0x73 :: rest) = 0x73 :: before.reverse := by
        unfold dirname
        simp only [hlast, hdrop]
        rfl
      rw [hdirname, List.cons_append, ← hsplit]

/-- The directory of an intent file is `singularity`, or below it. -/
theorem singularity_prefix_dirname {path : Text} (h : IntentPath path) :
    js "singularity" <+: dirname path := by
  obtain ⟨base, hbase⟩ := dirname_intent h
  obtain ⟨rest, hrest⟩ := h.below
  have hfirst : dirname path <+: path := ⟨_, hbase.symm⟩
  have hsecond : js "singularity" <+: path := ⟨0x2F :: rest, hrest⟩
  rcases List.prefix_or_prefix_of_prefix hfirst hsecond with ⟨tail, htail⟩ | hstart
  · -- behind a shorter directory the next unit would be a slash
    cases tail with
    | nil => rw [← htail, List.append_nil]
    | cons u tail =>
        have hslash : (0x2F : UInt16) ∈ js "singularity" := by
          have hpath : dirname path ++ 0x2F :: base = dirname path ++ u :: (tail ++ 0x2F :: rest) := by
            rw [← hbase, ← List.cons_append, ← List.append_assoc, htail]
            exact hrest.symm
          obtain ⟨rfl, -⟩ := List.cons.inj (List.append_cancel_left hpath)
          exact htail ▸ List.mem_append_right _ List.mem_cons_self
        exact absurd hslash (by decide)
  · exact hstart

/-! ## The walk and the walks it stands for -/

section Found

variable {git : Pathspecs} {pathspecs : List Text} {history : History}

/-- The commits that come before a commit are those of any place where its ID stands. -/
theorem newer_eq {newer newer' older older' : List LogCommit} {commit commit' : LogCommit}
    (hsplit : history.commits = newer ++ commit :: older)
    (hsplit' : history.commits = newer' ++ commit' :: older') (hid : commit.id = commit'.id) :
    newer = newer' ∧ commit = commit' := by
  have hmem : commit ∈ history.commits := hsplit ▸ List.mem_append_right _ List.mem_cons_self
  have hmem' : commit' ∈ history.commits := hsplit' ▸ List.mem_append_right _ List.mem_cons_self
  obtain rfl : commit = commit' :=
    List.inj_on_of_nodup_map history.distinctIds hmem hmem' hid
  have hnodup : (newer ++ commit :: older).Nodup := hsplit ▸ history.distinctIds.of_map _
  have hbefore : commit ∉ newer := fun h =>
    List.disjoint_of_nodup_append hnodup h List.mem_cons_self
  have hbehind : commit ∉ older := (List.nodup_cons.mp hnodup.of_append_right).1
  obtain ⟨hnewer, -, -⟩ :=
    (List.append_cons_inj_of_notMem hbefore hbehind).mp (hsplit.symm.trans hsplit')
  exact ⟨hnewer, rfl⟩

theorem exists_split {p : LogCommit → Bool} {id : Text}
    (h : (history.commits.find? p).map LogCommit.id = some id) :
    ∃ newer commit older, history.commits = newer ++ commit :: older ∧ commit.id = id ∧
      p commit = true ∧ ∀ other ∈ newer, p other = false := by
  obtain ⟨commit, hfind, hid⟩ := Option.map_eq_some_iff.mp h
  obtain ⟨hp, newer, older, hsplit, hnewer⟩ := List.find?_eq_some_iff_append.mp hfind
  exact ⟨newer, commit, older, hsplit, hid, hp, fun other hother => by
    simpa using hnewer other hother⟩

/-- The first commit with a property, named by its ID. -/
theorem find?_id_iff {newer older : List LogCommit} {commit : LogCommit}
    (hsplit : history.commits = newer ++ commit :: older) (p : LogCommit → Bool) :
    (history.commits.find? p).map LogCommit.id = some commit.id ↔
      p commit = true ∧ ∀ other ∈ newer, p other = false := by
  constructor
  · intro h
    obtain ⟨newer', commit', older', hsplit', hid, hp, hnewer⟩ := exists_split h
    obtain ⟨rfl, rfl⟩ := newer_eq hsplit hsplit' hid.symm
    exact ⟨hp, hnewer⟩
  · rintro ⟨hp, hnewer⟩
    have hfind : history.commits.find? p = some commit :=
      List.find?_eq_some_iff_append.mpr ⟨hp, newer, older, hsplit, fun other hother => by
        rw [hnewer other hother]; rfl⟩
    rw [hfind, Option.map_some]

/-- A text is mapped by the walk to the first commit in whose block it is read. -/
theorem mapGet_publishingCommits (hdigits : history.digits = 40) {selection : Option (List Text)}
    (hscope : ∀ commit ∈ history.commits,
      ∀ path ∈ commit.scope git (historyPaths selection), Inside path) (text : Text) :
    mapGet (publishingCommits (fun pathspecs => some (history.log git pathspecs)) selection) text
      = (history.commits.find? (·.reads git (historyPaths selection) text)).map LogCommit.id := by
  have hids : ∀ commit ∈ history.commits, isCommitLine commit.id = true := fun commit hcommit => by
    obtain ⟨hlength, hhex⟩ := history.ids commit hcommit
    rw [isCommitLine, hhex, hlength, hdigits]
    rfl
  unfold publishingCommits
  dsimp only
  rw [splitOn_log, List.foldl_append, List.foldl_cons, List.foldl_nil, readLine_nil,
    mapGet_readBlocks hids hscope, mapGet_nil, Option.none_or]

/-- **No line of a repository with IDs of 64 digits is read as a commit.** -/
theorem publishingCommits_sha256 (hdigits : history.digits = 64) {selection : Option (List Text)}
    (hscope : ∀ commit ∈ history.commits,
      ∀ path ∈ commit.scope git (historyPaths selection), Inside path) :
    publishingCommits (fun pathspecs => some (history.log git pathspecs)) selection = [] := by
  unfold publishingCommits
  dsimp only
  rw [splitOn_log, readLines_uncommitted]
  intro line hline
  rw [List.mem_append, List.mem_flatMap, List.mem_singleton] at hline
  rcases hline with ⟨commit, hcommit, hline⟩ | rfl
  · unfold LogCommit.block at hline
    split at hline
    · cases hline
    · simp only [List.mem_cons, List.mem_map] at hline
      rcases hline with rfl | rfl | ⟨path, hpath, rfl⟩
      · obtain ⟨hlength, hhex⟩ := history.ids commit hcommit
        rw [trim_of_lowerHex hhex, isCommitLine, hlength, hdigits]
        rfl
      · rfl
      · exact isCommitLine_readName (hscope commit hcommit path hpath)
  · rfl

theorem touches_iff {commit : LogCommit} {path : Text} :
    commit.touches path = true ↔ textEncode path ∈ commit.paths := by
  rw [LogCommit.touches, List.elem_eq_mem, decide_eq_true_eq]

/-- Where a commit's block names a path, that of any commit that touched it does. -/
theorem mem_scope_of_mem {commit other : LogCommit} {path : Bytes}
    (h : path ∈ commit.scope git pathspecs) (hother : path ∈ other.paths) :
    path ∈ other.scope git pathspecs :=
  List.mem_filter.mpr ⟨hother, (List.mem_filter.mp h).2⟩

end Found

section Exact

variable {git : Pathspecs} {history : History} {selection : Option (List Text)}
  {paths : List Text}

/-- In a repository with IDs of 40 digits, only misread paths are in the way. -/
theorem exact_iff_harmless (hpaths : ∀ path ∈ paths, IntentPath path)
    (hasked : Asked selection paths) (hdigits : history.digits = 40) :
    Exact history paths
        (publishingCommits (fun pathspecs => some (history.log git pathspecs)) selection) ↔
      Harmless git (historyPaths selection) history := by
  have hfound : ∀ text, mapGet
      (publishingCommits (fun pathspecs => some (history.log git pathspecs)) selection) text
        = (history.commits.find? (·.reads git (historyPaths selection) text)).map LogCommit.id :=
    mapGet_publishingCommits hdigits fun commit _ path hpath =>
      below_of_mem_scope git hpaths hasked hpath
  constructor
  · intro hexact newer commit older hsplit path hpath _ hnewer
    have hmapped := (find?_id_iff hsplit (·.reads git (historyPaths selection) (readName path))).mpr
      ⟨reads_iff.mpr ⟨path, hpath, rfl⟩, fun other hother => Bool.eq_false_iff.mpr fun hreads => by
        obtain ⟨path', hpath', heq⟩ := reads_iff.mp hreads
        exact hnewer other hother path' hpath' heq⟩
    exact (find?_id_iff hsplit _).mp (hexact.nothingElse _ _ ((hfound _).trans hmapped))
  · intro hharmless
    have helse : ∀ text id,
        mapGet (publishingCommits (fun pathspecs => some (history.log git pathspecs)) selection) text
          = some id → history.newest text = some id := by
      intro text id hmapped
      rw [hfound] at hmapped
      obtain ⟨newer, commit, older, hsplit, rfl, hreads, hnewer⟩ := exists_split hmapped
      obtain ⟨path, hpath, rfl⟩ := reads_iff.mp hreads
      refine (find?_id_iff hsplit _).mpr ?_
      by_cases hmisread : Misread path
      · refine hharmless newer commit older hsplit path hpath hmisread fun other hother path' hpath'
          heq => ?_
        have hnone := hnewer other hother
        rw [reads_iff.mpr ⟨path', hpath', heq⟩] at hnone
        cases hnone
      · -- the path is its own text, and a newer commit that touched it would be read first
        have hname : textEncode (readName path) = path := not_not.mp hmisread
        refine ⟨touches_iff.mpr (hname.symm ▸ (List.mem_filter.mp hpath).1), fun other hother => ?_⟩
        refine Bool.eq_false_iff.mpr fun htouches => ?_
        have hother' := mem_scope_of_mem hpath (hname ▸ touches_iff.mp htouches)
        have hnone := hnewer other hother
        rw [reads_iff.mpr ⟨path, hother', rfl⟩] at hnone
        cases hnone
    refine ⟨fun path hpath => ?_, helse⟩
    cases hmapped : mapGet
        (publishingCommits (fun pathspecs => some (history.log git pathspecs)) selection) path with
    | some id => exact (helse path id hmapped).symm
    | none =>
        rw [hfound, Option.map_eq_none_iff, List.find?_eq_none] at hmapped
        symm
        rw [History.newest, Option.map_eq_none_iff, List.find?_eq_none]
        intro commit hcommit htouches
        have hscope := mem_scope_of_touches git hpaths hasked hpath htouches
        exact hmapped commit hcommit
          (reads_iff.mpr ⟨_, hscope, readName_intent (hpaths path hpath)⟩)

end Exact

/-! ### Repositories -/

/-- A pathspec without wildcards matches the path itself, and what is below it. -/
def matchesLiterally (pathspec : Text) (path : Bytes) : Bool :=
  path = textEncode pathspec || (textEncode pathspec ++ [0x2F]).isPrefixOf path

theorem matchesLiterally_inside {directory base : Text}
    (h : ∀ u ∈ directory ++ 0x2F :: base, u.toNat < 0x7F) :
    matchesLiterally directory (textEncode (directory ++ 0x2F :: base)) = true := by
  rw [matchesLiterally, Bool.or_eq_true, List.isPrefixOf_iff_prefix, textEncode_printable h,
    textEncode_printable fun u hu => h u (List.mem_append_left _ hu)]
  exact .inr ⟨base.map octetOf, by
    rw [List.map_append, List.map_cons, List.append_assoc, List.singleton_append]
    rfl⟩

theorem below_of_matchesLiterally {directory : Text} (hstart : js "singularity" <+: directory)
    (h : ∀ u ∈ directory, u.toNat < 0x7F) {other : Bytes}
    (hmatch : matchesLiterally directory other = true) : Inside other := by
  have hbelow : Inside (textEncode directory) := by
    rw [Inside, textEncode_printable h,
      textEncode_printable fun u hu => h u (hstart.subset hu)]
    exact hstart.map octetOf
  rw [matchesLiterally, Bool.or_eq_true, List.isPrefixOf_iff_prefix, decide_eq_true_eq] at hmatch
  rcases hmatch with rfl | hmatch
  · exact hbelow
  · exact hbelow.trans ((List.prefix_append _ _).trans hmatch)

/-- Pathspecs that are taken as they stand. -/
def literalPathspecs : Pathspecs where
  matching := matchesLiterally
  directory := fun path h => by
    obtain ⟨base, hbase⟩ := dirname_intent h
    have hprintable := h.printable
    rw [hbase] at hprintable
    have hmatch := matchesLiterally_inside hprintable
    rwa [← hbase] at hmatch
  inside := fun path other h hmatch => by
    obtain ⟨base, hbase⟩ := dirname_intent h
    refine below_of_matchesLiterally (singularity_prefix_dirname h) (fun u hu => ?_) hmatch
    exact h.printable u (hbase ▸ List.mem_append_left _ hu)
  whole := fun path h => by
    have hprintable := h.printable
    obtain ⟨rest, rfl⟩ := h.below
    have hmatch : matchesLiterally (js "singularity")
        (textEncode (js "singularity" ++ 0x2F :: rest)) = true := matchesLiterally_inside hprintable
    exact hmatch
  wholeInside := fun other hmatch =>
    below_of_matchesLiterally (List.prefix_refl _) (fun u hu => of_decide_eq_true
      (List.all_eq_true.mp (rfl : (js "singularity").all (fun u => decide (u.toNat < 0x7F)) = true)
        u hu)) hmatch

/-- The path of an intent. -/
def sampleIntent : Text := js "singularity/epic/context/ledger-intents/story.json"

theorem intentPath_sample : IntentPath sampleIntent where
  below := by decide
  directory := by decide
  extension := by decide
  segments := by decide
  plain := fun u hu => of_decide_eq_true (List.all_eq_true.mp
    (rfl : sampleIntent.all (fun u =>
      decide (0x20 ≤ u.toNat ∧ u.toNat < 0x7F ∧ u ≠ 0x22 ∧ u ≠ 0x5C)) = true) u hu)

/-- One commit, which touched one intent. -/
def sampleHistory (digits : Nat) (h : digits = 40 ∨ digits = 64) : History where
  commits := [⟨List.replicate digits 0x61, [textEncode sampleIntent]⟩]
  digits := digits
  format := h
  ids := fun commit hcommit => by
    obtain rfl := List.mem_singleton.mp hcommit
    refine ⟨List.length_replicate, List.all_eq_true.mpr fun u hu => ?_⟩
    obtain rfl := List.eq_of_mem_replicate hu
    rfl
  distinctIds := List.nodup_singleton _

/-- No line of the sample is misread. -/
theorem harmless_sample : Harmless literalPathspecs (historyPaths (some [sampleIntent]))
    (sampleHistory 40 (.inl rfl)) := by
  intro newer commit older hsplit path hpath hmisread _
  have hcommit : commit ∈ (sampleHistory 40 (.inl rfl)).commits :=
    hsplit ▸ List.mem_append_right _ List.mem_cons_self
  obtain rfl := List.mem_singleton.mp hcommit
  obtain rfl := List.mem_singleton.mp (List.mem_filter.mp hpath).1
  exact absurd (congrArg textEncode (readName_intent intentPath_sample)) hmisread

end Ledger

end SingularityFlow
