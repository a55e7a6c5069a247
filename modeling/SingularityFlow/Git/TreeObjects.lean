/-
# Trees, and reading them in batches

A tree object is a run of records: a mode in octal digits, a blank, a name, a
zero octet, and the octets of an object ID.  `treeRecords` cuts a body into
records, whatever the modes and names are.

An object store answers for the objects that are local.  The name of an object
is the hash of what it holds, so that no tree is inside of itself: `rank` goes
down from a tree to what it names.  `git cat-file --batch` answers for a list of
names with a header and a body for each object that is local, and
`presentObjects` reads exactly those back (`mapGet_presentObjects`).
-/
import SingularityFlow.Git.Objects
import SingularityFlow.Git.PathNames
import SingularityFlow.Lib.SafeInteger

namespace SingularityFlow

open Ecma

namespace Git

/-! ## Tree objects -/

structure TreeRecord where
  mode : Bytes
  name : Bytes
  oid : Text
deriving DecidableEq

/-- The record at the front of a body, and the rest. -/
def readRecord (rawLength : Nat) (body : Bytes) : Option (TreeRecord × Bytes) :=
  match body.dropWhile (· ≠ 0x20) with
  | [] => none
  | _ :: behindMode =>
      match behindMode.dropWhile (· ≠ 0x00) with
      | [] => none
      | _ :: behindName =>
          if behindName.length < rawLength then none
          else
            some (⟨body.takeWhile (· ≠ 0x20), behindMode.takeWhile (· ≠ 0x00),
              hexText (behindName.take rawLength)⟩, behindName.drop rawLength)

/-- `treeRecords`, with fuel for the records. -/
def treeRecordsFrom (rawLength : Nat) : Nat → Bytes → Option (List TreeRecord)
  | _, [] => some []
  | 0, _ :: _ => none
  | fuel + 1, u :: rest =>
      match readRecord rawLength (u :: rest) with
      | none => none
      | some (record, behind) => (treeRecordsFrom rawLength fuel behind).map (record :: ·)

/-- The records of a body; each takes an octet, so that the length is fuel enough. -/
def treeRecords (body : Bytes) (oidLength : Nat) : Option (List TreeRecord) :=
  treeRecordsFrom (oidLength / 2) body.length body

/-! ## Object stores -/

inductive ObjectType where
  | commit | tree | blob | tag
deriving DecidableEq

def ObjectType.name : ObjectType → Text
  | .commit => js "commit"
  | .tree => js "tree"
  | .blob => js "blob"
  | .tag => js "tag"

/-- The objects that are local. -/
structure ObjectStore where
  object : Text → Option (ObjectType × Bytes)
  size_lt : ∀ {oid type body}, object oid = some (type, body) → body.length < 2 ^ 53
  rank : Text → Nat
  acyclic : ∀ {oid body records}, object oid = some (.tree, body) →
    treeRecords body oid.length = some records → ∀ record ∈ records, rank record.oid < rank oid

namespace ObjectStore

variable (store : ObjectStore)

/-- The body of an object of a type. -/
def body? (type : ObjectType) (oid : Text) : Option Bytes :=
  (store.object oid).bind fun object => if object.1 = type then some object.2 else none

/-- What `git cat-file --batch` prints for one name. -/
def frame (oid : Text) : Bytes :=
  match store.object oid with
  | none => textEncode (oid ++ js " missing") ++ [0x0A]
  | some (type, body) =>
      textEncode (oid ++ js " " ++ type.name ++ js " " ++ natText body.length)
        ++ 0x0A :: (body ++ [0x0A])

end ObjectStore

/-! ## Reading what is present -/

/-- One batch, object by object: the header, and the body that its size says. -/
def readFrames (type : Text) : List Text → Bytes → List (Text × Bytes) → List (Text × Bytes)
  | [], _, found => found
  | oid :: rest, bytes, found =>
      match takeLine bytes with
      | none => found
      | some (line, behind) =>
          match (utf8Text line).splitOn 0x20 with
          | [name, kind, rawSize] =>
              if kind = js "missing" then readFrames type rest behind found
              else
                match sizeOf? rawSize with
                | none => found
                | some size =>
                    if name ≠ oid then found
                    else
                      match takeBody size behind with
                      | none => found
                      | some (body, behind) =>
                          readFrames type rest behind
                            (if kind = type then mapSet found oid body else found)
          | _ => readFrames type rest behind found

def objectBatch : Nat := 2048

/-- The groups of a list, with fuel for the groups. -/
def groupsFrom {α : Type} (size : Nat) : Nat → List α → List (List α)
  | 0, _ => []
  | _, [] => []
  | fuel + 1, a :: rest => (a :: rest).take size :: groupsFrom size fuel ((a :: rest).drop size)

/-- `presentObjects`; `catFile` is what `git cat-file --batch` prints for a
group of names, where it succeeds. -/
def presentObjects (catFile : List Text → Option Bytes) (oids : List Text) (type : ObjectType) :
    List (Text × Bytes) :=
  (groupsFrom objectBatch (distinct oids).length (distinct oids)).foldl
    (fun found group =>
      match catFile group with
      | none => found
      | some bytes => readFrames type.name group bytes found) []

theorem groupsFrom_flatten {α : Type} {size : Nat} (hsize : 0 < size) :
    ∀ (fuel : Nat) (l : List α), l.length ≤ fuel → (groupsFrom size fuel l).flatten = l := by
  intro fuel
  induction fuel with
  | zero =>
      intro l h
      exact (List.eq_nil_of_length_eq_zero (Nat.le_zero.mp h)).symm
  | succ fuel ih =>
      intro l h
      cases l with
      | nil => rfl
      | cons a rest =>
          have hshort : ((a :: rest).drop size).length ≤ fuel := by
            rw [List.length_drop]
            omega
          rw [groupsFrom, List.flatten_cons, ih _ hshort, List.take_append_drop]

/-! ## What is read -/

theorem takeLine_append {line : Bytes} (h : 0x0A ∉ line) (rest : Bytes) :
    takeLine (line ++ 0x0A :: rest) = some (line, rest) := by
  have hall : ∀ b ∈ line, decide (b ≠ 0x0A) = true := fun b hb =>
    decide_eq_true fun hlf => h (hlf ▸ hb)
  unfold takeLine
  rw [List.dropWhile_append_of_pos hall, List.takeWhile_append_of_pos hall]
  simp

theorem sizeOf?_natText {n : Nat} (h : n < 2 ^ 53) : sizeOf? (natText n) = some n := by
  rw [sizeOf?, stringToNumber_natText, safeSize?_ofNat h]

/-- A text for a header line: printable, and no blank in it. -/
def IsWord (t : Text) : Prop := ∀ u ∈ t, 0x20 < u.toNat ∧ u.toNat < 0x7F

theorem isWord_of_lowerHex {t : Text} (h : t.all isLowerHex = true) : IsWord t := by
  intro u hu
  have := List.all_eq_true.mp h u hu
  simp only [isLowerHex, isDigit, Bool.or_eq_true, Bool.and_eq_true, decide_eq_true_eq] at this
  omega

theorem isWord_natText (n : Nat) : IsWord (natText n) := by
  intro u hu
  have := isDigit_natText n u hu
  simp only [isDigit, Bool.and_eq_true, decide_eq_true_eq] at this
  omega

theorem isWord_name (type : ObjectType) : IsWord type.name := by
  have h : ∀ type : ObjectType,
      type.name.all (fun u => decide (0x20 < u.toNat ∧ u.toNat < 0x7F)) = true := by
    intro type
    cases type <;> rfl
  exact fun u hu => of_decide_eq_true (List.all_eq_true.mp (h type) u hu)

theorem IsWord.blank_notMem {t : Text} (h : IsWord t) : (0x20 : UInt16) ∉ t := fun hmem =>
  absurd (h _ hmem).1 (by decide)

/-- Words with blanks between them are one line. -/
theorem line_words {t : Text} (h : ∀ u ∈ t, 0x20 ≤ u.toNat ∧ u.toNat < 0x7F) (rest : Bytes) :
    takeLine (textEncode t ++ 0x0A :: rest) = some (textEncode t, rest)
      ∧ utf8Text (textEncode t) = t := by
  refine ⟨takeLine_append ?_ rest, utf8Text_printable fun u hu => (h u hu).2⟩
  rw [textEncode_printable fun u hu => (h u hu).2]
  intro hmem
  obtain ⟨u, hu, heq⟩ := List.mem_map.mp hmem
  have hnat := congrArg UInt8.toNat heq
  have hbounds := h u hu
  rw [octetOf, toNat_ofNat_uint8 (by omega)] at hnat
  have : (0x0A : UInt8).toNat = 10 := rfl
  omega

theorem append_words {a b : Text} (ha : ∀ u ∈ a, 0x20 ≤ u.toNat ∧ u.toNat < 0x7F) (hb : IsWord b) :
    ∀ u ∈ a ++ js " " ++ b, 0x20 ≤ u.toNat ∧ u.toNat < 0x7F := by
  intro u hu
  rcases List.mem_append.mp hu with hu | hu
  · rcases List.mem_append.mp hu with hu | hu
    · exact ha u hu
    · obtain rfl : u = 0x20 := List.mem_singleton.mp hu
      decide
  · exact ⟨(hb u hu).1.le, (hb u hu).2⟩

theorem IsWord.printable {t : Text} (h : IsWord t) : ∀ u ∈ t, 0x20 ≤ u.toNat ∧ u.toNat < 0x7F :=
  fun u hu => ⟨(h u hu).1.le, (h u hu).2⟩

theorem splitOn_two {a b : Text} (ha : IsWord a) (hb : IsWord b) :
    (a ++ js " " ++ b).splitOn 0x20 = [a, b] := by
  have hblank : js " " = [0x20] := by decide
  rw [hblank, List.append_assoc, List.singleton_append,
    List.splitOn_append_cons_self_of_not_mem ha.blank_notMem,
    List.splitOn_eq_singleton hb.blank_notMem]

theorem splitOn_three {a b c : Text} (ha : IsWord a) (hb : IsWord b) (hc : IsWord c) :
    (a ++ js " " ++ b ++ js " " ++ c).splitOn 0x20 = [a, b, c] := by
  have hblank : js " " = [0x20] := by decide
  have hfront : a ++ js " " ++ b ++ js " " ++ c = a ++ 0x20 :: (b ++ js " " ++ c) := by
    rw [hblank]
    simp only [List.append_assoc, List.cons_append, List.nil_append]
  rw [hfront, List.splitOn_append_cons_self_of_not_mem ha.blank_notMem, splitOn_two hb hc]

theorem ObjectType.name_inj {type type' : ObjectType} : type.name = type'.name ↔ type = type' := by
  cases type <;> cases type' <;> decide

namespace ObjectStore

variable (store : ObjectStore) (type : ObjectType)

/-- A body is found where the object has the type. -/
def put (found : List (Text × Bytes)) (oid : Text) : List (Text × Bytes) :=
  match store.body? type oid with
  | none => found
  | some body => mapSet found oid body

theorem readFrames_missing {oid : Text} (hword : IsWord oid) (hnone : store.object oid = none)
    (rest : List Text) (behind : Bytes) (found : List (Text × Bytes)) :
    readFrames type.name (oid :: rest) (store.frame oid ++ behind) found
      = readFrames type.name rest behind found := by
  have hmissing : IsWord (js "missing") := by
    have h : (js "missing").all (fun u => decide (0x20 < u.toNat ∧ u.toNat < 0x7F)) = true := rfl
    exact fun u hu => of_decide_eq_true (List.all_eq_true.mp h u hu)
  have hjoin : oid ++ js " missing" = oid ++ js " " ++ js "missing" := by
    rw [List.append_assoc]
    rfl
  obtain ⟨hline, htext⟩ := line_words (append_words hword.printable hmissing) behind
  rw [frame, hnone]
  dsimp only
  rw [hjoin, List.append_assoc, List.singleton_append, readFrames, hline]
  dsimp only
  rw [htext, splitOn_two hword hmissing]

theorem readFrames_present {oid : Text} (hword : IsWord oid) {kind : ObjectType} {body : Bytes}
    (hsome : store.object oid = some (kind, body)) (rest : List Text) (behind : Bytes)
    (found : List (Text × Bytes)) :
    readFrames type.name (oid :: rest) (store.frame oid ++ behind) found
      = readFrames type.name rest behind (if kind = type then mapSet found oid body else found) := by
  have hkind : kind.name ≠ js "missing" := by cases kind <;> decide
  obtain ⟨hline, htext⟩ := line_words
    (append_words (append_words hword.printable (isWord_name kind)) (isWord_natText body.length))
    (body ++ 0x0A :: behind)
  have hframe : store.frame oid ++ behind
      = textEncode (oid ++ js " " ++ kind.name ++ js " " ++ natText body.length)
        ++ 0x0A :: (body ++ 0x0A :: behind) := by
    rw [frame, hsome]
    simp only [List.append_assoc, List.cons_append, List.nil_append]
  rw [hframe, readFrames, hline]
  dsimp only
  rw [htext, splitOn_three hword (isWord_name kind) (isWord_natText _)]
  dsimp only
  rw [if_neg hkind, sizeOf?_natText (store.size_lt hsome)]
  dsimp only
  rw [if_neg (not_not.mpr rfl), takeBody_append]
  simp only [ObjectType.name_inj]

/-- **What is framed is read back.** -/
theorem readFrames_frames : ∀ (group : List Text) (found : List (Text × Bytes)),
    (∀ oid ∈ group, IsWord oid) →
      readFrames type.name group (group.flatMap store.frame) found
        = group.foldl (store.put type) found := by
  intro group
  induction group with
  | nil => exact fun _ _ => rfl
  | cons oid rest ih =>
      intro found hwords
      have hword := hwords oid List.mem_cons_self
      have hrest := fun other h => hwords other (List.mem_cons_of_mem oid h)
      rw [List.flatMap_cons, List.foldl_cons]
      cases hobject : store.object oid with
      | none =>
          rw [store.readFrames_missing type hword hobject, ih _ hrest, put, body?, hobject]
          rfl
      | some object =>
          obtain ⟨kind, body⟩ := object
          rw [store.readFrames_present type hword hobject, ih _ hrest, put, body?, hobject]
          congr 1
          by_cases hkind : kind = type
          · simp only [Option.bind_some, if_pos hkind]
          · simp only [Option.bind_some, if_neg hkind]

theorem mapGet_put (found : List (Text × Bytes)) (oid key : Text) :
    mapGet (store.put type found oid) key
      = if key = oid then (store.body? type oid).or (mapGet found oid) else mapGet found key := by
  unfold put
  by_cases hkey : key = oid
  · subst hkey
    rw [if_pos rfl]
    cases store.body? type key with
    | none => rfl
    | some body => exact mapGet_mapSet_self ..
  · rw [if_neg hkey]
    cases store.body? type oid with
    | none => rfl
    | some body => exact mapGet_mapSet_of_ne hkey

/-- After a list of names, each of them is found as the store has it. -/
theorem mapGet_foldl_put : ∀ (oids : List Text) (found : List (Text × Bytes)),
    (∀ key body, mapGet found key = some body → store.body? type key = some body) →
      ∀ key, mapGet (oids.foldl (store.put type) found) key
        = if key ∈ oids then store.body? type key else mapGet found key := by
  intro oids
  induction oids with
  | nil =>
      intro found _ key
      rw [List.foldl_nil, if_neg List.not_mem_nil]
  | cons oid rest ih =>
      intro found hfound key
      have hself : (store.body? type oid).or (mapGet found oid) = store.body? type oid := by
        cases hbody : store.body? type oid with
        | some body => rfl
        | none =>
            cases hget : mapGet found oid with
            | none => rfl
            | some body => rw [hfound oid body hget] at hbody; cases hbody
      have hput : ∀ key body, mapGet (store.put type found oid) key = some body →
          store.body? type key = some body := by
        intro key body hget
        rw [mapGet_put, hself] at hget
        split at hget
        · next heq => exact heq ▸ hget
        · exact hfound key body hget
      rw [List.foldl_cons, ih _ hput, mapGet_put, hself]
      by_cases hkey : key = oid
      · subst hkey
        simp only [List.mem_cons, true_or, if_true, ite_self]
      · simp only [List.mem_cons, hkey, false_or, if_false]

/-- **The objects of a type that are local are present, and no others.** -/
theorem mapGet_presentObjects {oids : List Text} (hwords : ∀ oid ∈ oids, IsWord oid) {oid : Text}
    (hoid : oid ∈ oids) :
    mapGet (presentObjects (fun group => some (group.flatMap store.frame)) oids type) oid
      = store.body? type oid := by
  have hgroups : ∀ (groups : List (List Text)) (found : List (Text × Bytes)),
      (∀ group ∈ groups, ∀ oid ∈ group, IsWord oid) →
        groups.foldl (fun found group =>
            readFrames type.name group (group.flatMap store.frame) found) found
          = groups.flatten.foldl (store.put type) found := by
    intro groups
    induction groups with
    | nil => exact fun _ _ => rfl
    | cons group rest ih =>
        intro found hgroups
        rw [List.foldl_cons, List.flatten_cons, List.foldl_append,
          store.readFrames_frames type _ _ (hgroups group List.mem_cons_self),
          ih _ fun other h => hgroups other (List.mem_cons_of_mem group h)]
  have hflat : (groupsFrom objectBatch (distinct oids).length (distinct oids)).flatten
      = distinct oids := groupsFrom_flatten (by decide) _ _ le_rfl
  have hwords' : ∀ group ∈ groupsFrom objectBatch (distinct oids).length (distinct oids),
      ∀ oid ∈ group, IsWord oid := by
    intro group hgroup oid hmem
    have hmem' := List.mem_flatten_of_mem hgroup hmem
    rw [hflat, mem_distinct] at hmem'
    exact hwords oid hmem'
  rw [presentObjects]
  dsimp only
  rw [hgroups _ _ hwords', hflat, store.mapGet_foldl_put type _ _ (fun _ _ h => by cases h),
    if_pos ((mem_distinct).mpr hoid)]

end ObjectStore

end Git

end SingularityFlow
