/-
# The records of `git diff --name-status -z`

The output is a list of fields, each of them ended by NUL.  Nothing tells a
status from a path but its place: a status comes first, and says by its first
letter whether one or two paths follow it.

The parser is an inverse of writing the records down (`parseGitNameStatus_iff`).
It is proved by layers, each of them one `_iff`: the fields of a byte string,
the text of one field, and the records of a list of fields.
-/
import SingularityFlow.Errors
import SingularityFlow.Lib.NumberText
import SingularityFlow.Lib.Utf8
import Mathlib.Data.List.TakeWhile

namespace SingularityFlow

open Ecma

namespace NameStatus

/-! ## The parser -/

structure GitNameStatusParseError where
  message : Text
  code : Text
deriving DecidableEq

def invalid (message : Text) : GitNameStatusParseError :=
  ⟨message, js "GIT_DIFF_NAME_STATUS_INVALID"⟩

def limitExceeded (message : Text) : GitNameStatusParseError :=
  ⟨message, js "GIT_DIFF_NAME_STATUS_LIMIT_EXCEEDED"⟩

/-- `if (p) fail(message, code)` -/
def failWhen (p : Prop) [Decidable p] (e : GitNameStatusParseError) :
    Except GitNameStatusParseError Unit :=
  if p then .error e else .ok ()

structure Limits where
  maximumBytes : Int
  maximumRecords : Int

def defaultLimits : Limits := ⟨64 * 1024 * 1024, 500000⟩

def isSafeInteger (n : Int) : Bool := -(2 ^ 53 - 1) ≤ n && n ≤ 2 ^ 53 - 1

structure Change where
  status : Text
  paths : List Text
deriving DecidableEq

/-- The loop of `fieldsOf`, with `count` fields behind it. -/
def fieldsFrom (maximumRecords : Int) (count : Nat) (bytes : Bytes) :
    Except GitNameStatusParseError (List Bytes) :=
  match hbytes : bytes with
  | [] => .ok []
  | b :: tail =>
      match hend : (b :: tail).dropWhile (· ≠ 0) with
      | [] => .error (invalid (js "Git name-status output contains a truncated field."))
      | _ :: rest =>
          let field := (b :: tail).takeWhile (· ≠ 0)
          have : rest.length < tail.length + 1 := by
            have h := (List.dropWhile_suffix (· ≠ 0) (l := b :: tail)).length_le
            rw [hend, List.length_cons, List.length_cons] at h
            omega
          do
          failWhen (field = []) (invalid (js "Git name-status output contains an empty field."))
          failWhen (maximumRecords * 3 ≤ count)
            (limitExceeded (js "Git name-status output exceeds its record limit."))
          let fields ← fieldsFrom maximumRecords (count + 1) rest
          .ok (field :: fields)
termination_by bytes.length

def fieldsOf (bytes : Bytes) (maximumRecords : Int) :
    Except GitNameStatusParseError (List Bytes) := do
  failWhen (bytes ≠ [] ∧ bytes.getLast? ≠ some 0)
    (invalid (js "Git name-status output is missing its final NUL."))
  fieldsFrom maximumRecords 0 bytes

/-- `field.toString('ascii')` -/
def asciiText (field : Bytes) : Text := field.map fun b => (b.toNat % 0x80).toUInt16

/-- `/^[ADMTUXB]$/` -/
def isPlain (status : Text) : Bool :=
  match status with
  | [letter] => letter ∈ js "ADMTUXB"
  | _ => false

/-- `/^([RC])([0-9]{1,3})$/`, and a number up to 100. -/
def isSimilarity (status : Text) : Bool :=
  match status with
  | letter :: digits => letter ∈ js "RC" && (1 ≤ digits.length && digits.length ≤ 3)
      && digits.all isDigit && digitsValue digits ≤ 100
  | [] => false

def statusOf (field : Bytes) : Except GitNameStatusParseError Text := do
  failWhen (∃ b ∈ field, b.toNat < 0x21 ∨ 0x7E < b.toNat)
    (invalid (js "Git name-status output contains invalid status metadata."))
  failWhen (isPlain (asciiText field) = false ∧ isSimilarity (asciiText field) = false)
    (invalid (js "Git name-status output contains unsupported status '" ++ asciiText field
      ++ js "'."))
  .ok (asciiText field)

/-- The decoder is fatal, and keeps a byte order mark. -/
def pathOf (field : Bytes) : Except GitNameStatusParseError Text :=
  match utf8Decode field with
  | some cs => .ok (ofScalars cs)
  | none => .error
      (invalid (js "Git name-status output contains a path that is not valid UTF-8."))

/-- `status[0] === 'R' || status[0] === 'C' ? 2 : 1` -/
def pathCount (status : Text) : Nat :=
  if status.head? = some 0x52 ∨ status.head? = some 0x43 then 2 else 1

/-- The loop of `parseGitNameStatus`, with `count` records behind it. -/
def changesFrom (maximumRecords : Int) (count : Nat) (fields : List Bytes) :
    Except GitNameStatusParseError (List Change) :=
  match fields with
  | [] => .ok []
  | field :: rest => do
      failWhen (maximumRecords ≤ count)
        (limitExceeded (js "Git name-status output exceeds its record limit."))
      let status ← statusOf field
      failWhen (rest.length < pathCount status)
        (invalid (js "Git name-status output contains an incomplete '" ++ status.take 1
          ++ js "' record."))
      let paths ← sequence ((rest.take (pathCount status)).map pathOf)
      let changes ← changesFrom maximumRecords (count + 1) (rest.drop (pathCount status))
      .ok (⟨status, paths⟩ :: changes)
termination_by fields.length
decreasing_by
  rw [List.length_drop, List.length_cons]
  omega

def parseGitNameStatus (limits : Limits) (input : Bytes) :
    Except GitNameStatusParseError (List Change) := do
  failWhen (isSafeInteger limits.maximumRecords = false ∨ limits.maximumRecords < 1)
    (invalid (js "Invalid Git name-status record limit."))
  failWhen (isSafeInteger limits.maximumBytes = false ∨ limits.maximumBytes < 0)
    (invalid (js "Invalid Git name-status byte limit."))
  failWhen (limits.maximumBytes < input.length)
    (limitExceeded (js "Git name-status output exceeds its byte limit."))
  let fields ← fieldsOf input limits.maximumRecords
  changesFrom limits.maximumRecords 0 fields

/-! ## Writing records -/

/-- Every field is followed by NUL. -/
def joinFields (fields : List Bytes) : Bytes := fields.flatMap (· ++ [0])

/-- The status, then each path. -/
def Change.fields (change : Change) : List Bytes :=
  textEncode change.status :: change.paths.map textEncode

def serialize (changes : List Change) : Bytes := joinFields (changes.flatMap Change.fields)

/-! ## Fields -/

theorem failWhen_eq_ok_iff {p : Prop} [Decidable p] {e : GitNameStatusParseError} {u : Unit} :
    failWhen p e = .ok u ↔ ¬ p := by
  unfold failWhen
  split <;> simp [*]

theorem takeWhile_field {field : Bytes} (h : 0 ∉ field) (rest : Bytes) :
    (field ++ 0 :: rest).takeWhile (· ≠ 0) = field
      ∧ (field ++ 0 :: rest).dropWhile (· ≠ 0) = 0 :: rest := by
  have hall : ∀ b ∈ field, decide (b ≠ 0) = true := fun b hb =>
    decide_eq_true fun hzero => h (hzero ▸ hb)
  rw [List.takeWhile_append_of_pos hall, List.dropWhile_append_of_pos hall]
  simp

/-- One field of the loop. -/
theorem fieldsFrom_field {maximumRecords : Int} {count : Nat} {field rest : Bytes}
    {fields : List Bytes} (h : 0 ∉ field) :
    fieldsFrom maximumRecords count (field ++ 0 :: rest) = .ok fields ↔
      field ≠ [] ∧ count < maximumRecords * 3
        ∧ ∃ tail, fieldsFrom maximumRecords (count + 1) rest = .ok tail ∧ fields = field :: tail := by
  obtain ⟨htake, hdrop⟩ := takeWhile_field h rest
  obtain ⟨b, tail, hbytes⟩ : ∃ b tail, field ++ 0 :: rest = b :: tail :=
    List.exists_cons_of_ne_nil (by simp)
  rw [hbytes] at htake hdrop ⊢
  rw [fieldsFrom]
  split
  · next hend =>
      rw [hdrop] at hend
      cases hend
  · next u rest' hend =>
      obtain ⟨-, rfl⟩ := List.cons.inj (hdrop.symm.trans hend)
      simp only [bind_eq_ok_iff, failWhen_eq_ok_iff, exists_const, Except.ok.injEq, htake, not_le,
        @eq_comm _ fields]

/-- A last field without its NUL. -/
theorem fieldsFrom_truncated {maximumRecords : Int} {count : Nat} {bytes : Bytes}
    {fields : List Bytes} (hne : bytes ≠ []) (h : 0 ∉ bytes) :
    fieldsFrom maximumRecords count bytes ≠ .ok fields := by
  obtain ⟨b, tail, rfl⟩ := List.exists_cons_of_ne_nil hne
  have hdrop : (b :: tail).dropWhile (· ≠ 0) = [] :=
    List.dropWhile_eq_nil_iff.mpr fun u hu => decide_eq_true fun hzero => h (hzero ▸ hu)
  rw [fieldsFrom]
  split
  · exact fun herror => by cases herror
  · next hend =>
      rw [hdrop] at hend
      cases hend

/-- A byte string is empty, or one field without its NUL, or begins with a field. -/
theorem fields_cases (bytes : Bytes) : bytes = [] ∨ (bytes ≠ [] ∧ 0 ∉ bytes)
    ∨ ∃ field rest, 0 ∉ field ∧ bytes = field ++ 0 :: rest := by
  by_cases hzero : 0 ∈ bytes
  · obtain ⟨field, rest, hbytes, hfield⟩ := List.eq_append_cons_of_mem hzero
    exact .inr (.inr ⟨field, rest, hfield, hbytes⟩)
  · by_cases hnil : bytes = []
    · exact .inl hnil
    · exact .inr (.inl ⟨hnil, hzero⟩)

/-- What is asked of a field. -/
def IsField (field : Bytes) : Prop := field ≠ [] ∧ 0 ∉ field

theorem joinFields_cons (field : Bytes) (fields : List Bytes) :
    joinFields (field :: fields) = field ++ 0 :: joinFields fields := by
  simp [joinFields]

/-- A field ends at the first NUL. -/
theorem join_inj {field field' rest rest' : Bytes} (h : 0 ∉ field) (h' : 0 ∉ field')
    (heq : field ++ 0 :: rest = field' ++ 0 :: rest') : field = field' ∧ rest = rest' := by
  obtain ⟨htake, hdrop⟩ := takeWhile_field h rest
  obtain ⟨htake', hdrop'⟩ := takeWhile_field h' rest'
  rw [heq, htake'] at htake
  rw [heq, hdrop'] at hdrop
  exact ⟨htake.symm, (List.cons.inj hdrop).2.symm⟩

/-- **Fields.**  The loop inverts the joining of fields. -/
theorem fieldsFrom_eq_ok_iff {maximumRecords : Int} {count : Nat} {bytes : Bytes}
    {fields : List Bytes} : fieldsFrom maximumRecords count bytes = .ok fields ↔
      (fields = [] ∨ count + fields.length ≤ maximumRecords * 3) ∧ (∀ field ∈ fields, IsField field)
        ∧ joinFields fields = bytes := by
  induction hlength : bytes.length using Nat.strongRecOn generalizing bytes count fields with
  | ind n ih =>
      subst hlength
      rcases fields_cases bytes with rfl | ⟨hne, hzero⟩ | ⟨field, rest, hfield, rfl⟩
      · rw [fieldsFrom]
        cases fields with
        | nil => simp [joinFields]
        | cons field fields => simp [joinFields]
      · refine iff_of_false (fieldsFrom_truncated hne hzero) ?_
        rintro ⟨-, -, rfl⟩
        cases fields with
        | nil => exact hne rfl
        | cons field fields => exact hzero (by simp [joinFields])
      · rw [fieldsFrom_field hfield]
        cases fields with
        | nil => simp [joinFields]
        | cons field' fields =>
            have hrest : ∀ {fields}, fieldsFrom maximumRecords (count + 1) rest = .ok fields ↔
                (fields = [] ∨ (count + 1 : Nat) + fields.length ≤ maximumRecords * 3)
                  ∧ (∀ field ∈ fields, IsField field) ∧ joinFields fields = rest :=
              ih rest.length (by simp; omega) rfl
            rw [joinFields_cons, List.forall_mem_cons, List.length_cons]
            constructor
            · rintro ⟨hne, hless, tail, hrec, heq⟩
              obtain ⟨rfl, rfl⟩ := List.cons.inj heq
              obtain ⟨hcount, hall, rfl⟩ := hrest.mp hrec
              refine ⟨.inr ?_, ⟨⟨hne, hfield⟩, hall⟩, rfl⟩
              rcases hcount with rfl | hcount
              · rw [List.length_nil]
                omega
              · omega
            · rintro ⟨hcount, ⟨hfield', hall⟩, hjoin⟩
              obtain ⟨rfl, rfl⟩ := join_inj hfield'.2 hfield hjoin
              have hless := hcount.resolve_left (List.cons_ne_nil _ _)
              exact ⟨hfield'.1, by omega, fields, hrest.mpr ⟨.inr (by omega), hall, rfl⟩, rfl⟩

theorem fieldsOf_eq_ok_iff {maximumRecords : Int} {bytes : Bytes} {fields : List Bytes} :
    fieldsOf bytes maximumRecords = .ok fields ↔
      (fields = [] ∨ fields.length ≤ maximumRecords * 3) ∧ (∀ field ∈ fields, IsField field)
        ∧ joinFields fields = bytes := by
  rw [fieldsOf, bind_eq_ok_iff]
  simp only [failWhen_eq_ok_iff, exists_const, fieldsFrom_eq_ok_iff, Nat.cast_zero, zero_add]
  refine ⟨And.right, fun h => ⟨?_, h⟩⟩
  rintro ⟨hne, hlast⟩
  obtain ⟨-, -, rfl⟩ := h
  cases hfields : fields.reverse with
  | nil => exact hne (by rw [List.reverse_eq_nil_iff.mp hfields]; rfl)
  | cons field before =>
      rw [← List.reverse_reverse fields, hfields, List.reverse_cons, joinFields,
        List.flatMap_append] at hlast
      simp at hlast


/-! ## The text of a field -/

theorem pathOf_eq_ok_iff {field : Bytes} {path : Text} :
    pathOf field = .ok path ↔ WellFormed path ∧ textEncode path = field := by
  unfold pathOf
  constructor
  · intro h
    split at h
    · next cs hdecode =>
        obtain rfl := Except.ok.inj h
        refine ⟨wellFormed_ofScalars cs, ?_⟩
        rw [textEncode, scalars_ofScalars, utf8Encode_of_utf8Decode hdecode]
    · cases h
  · rintro ⟨hpath, rfl⟩
    rw [textEncode, utf8Decode_utf8Encode]
    exact congrArg Except.ok (ofScalars_scalars hpath)

/-- The statuses of Git: a letter, or a letter with a similarity of up to 100. -/
inductive ValidStatus : Text → Prop
  | plain {letter : UInt16} : letter ∈ js "ADMTUXB" → ValidStatus [letter]
  | similarity {letter : UInt16} {digits : Text} : letter ∈ js "RC" → 1 ≤ digits.length →
      digits.length ≤ 3 → (∀ u ∈ digits, isDigit u = true) → digitsValue digits ≤ 100 →
      ValidStatus (letter :: digits)

theorem validStatus_iff {status : Text} :
    ValidStatus status ↔ ¬ (isPlain status = false ∧ isSimilarity status = false) := by
  rw [← Bool.or_eq_false_iff, Bool.not_eq_false, Bool.or_eq_true]
  constructor
  · intro h
    cases h with
    | plain h => exact .inl (by simpa [isPlain] using h)
    | similarity h h1 h3 hdigits hvalue =>
        exact .inr (by simpa [isSimilarity, h, h1, h3, hvalue] using hdigits)
  · rintro (h | h)
    · unfold isPlain at h
      split at h
      · exact .plain (by simpa using h)
      · cases h
    · unfold isSimilarity at h
      split at h
      · simp only [Bool.and_eq_true, decide_eq_true_eq, List.all_eq_true] at h
        exact .similarity h.1.1.1 h.1.1.2.1 h.1.1.2.2 h.1.2 h.2
      · cases h

theorem ValidStatus.printable {status : Text} (h : ValidStatus status) :
    ∀ u ∈ status, 0x21 ≤ u.toNat ∧ u.toNat ≤ 0x7E := by
  have hletters : (js "ADMTUXB" ++ js "RC").all
      (fun u => decide (0x21 ≤ u.toNat ∧ u.toNat ≤ 0x7E)) = true := rfl
  have hletter : ∀ u ∈ js "ADMTUXB" ++ js "RC", 0x21 ≤ u.toNat ∧ u.toNat ≤ 0x7E := fun u hu =>
    of_decide_eq_true (List.all_eq_true.mp hletters u hu)
  cases h with
  | plain h => exact List.forall_mem_singleton.mpr (hletter _ (List.mem_append_left _ h))
  | similarity h _ _ hdigits _ =>
      refine List.forall_mem_cons.mpr ⟨hletter _ (List.mem_append_right _ h), fun u hu => ?_⟩
      have hdigit := hdigits u hu
      simp only [isDigit, Bool.and_eq_true, decide_eq_true_eq] at hdigit
      omega

/-- Printable octets are the octets of their text. -/
theorem textEncode_asciiText {field : Bytes} (h : ∀ b ∈ field, b.toNat ≤ 0x7E) :
    textEncode (asciiText field) = field := by
  have hsame : asciiText field = field.map fun b => b.toNat.toUInt16 :=
    List.map_congr_left fun b hb => by rw [Nat.mod_eq_of_lt (by have := h b hb; omega)]
  rw [hsame]
  exact textEncode_ascii fun b hb => by have := h b hb; omega

/-- Printable units are the text of some octets. -/
theorem exists_asciiText {status : Text} (h : ∀ u ∈ status, u.toNat ≤ 0x7E) :
    asciiText (status.map fun u => UInt8.ofNat u.toNat) = status := by
  have hunit : ∀ u ∈ status, ((UInt8.ofNat u.toNat).toNat % 0x80).toUInt16 = id u := by
    intro u hu
    have hu := h u hu
    rw [toNat_ofNat_uint8 (by omega), Nat.mod_eq_of_lt (by omega)]
    exact UInt16.toNat_inj.mp (toNat_toUInt16 (by omega))
  rw [asciiText, List.map_map]
  exact (List.map_congr_left hunit).trans (List.map_id _)

theorem statusOf_eq_ok_iff {field : Bytes} {status : Text} :
    statusOf field = .ok status ↔ ValidStatus status ∧ textEncode status = field := by
  simp only [statusOf, bind_eq_ok_iff, failWhen_eq_ok_iff, exists_const, Except.ok.injEq,
    ← validStatus_iff]
  constructor
  · rintro ⟨hprintable, hvalid, rfl⟩
    refine ⟨hvalid, textEncode_asciiText fun b hb => ?_⟩
    have := not_exists.mp hprintable b
    simp only [hb, true_and, not_or, not_lt] at this
    exact this.2
  · rintro ⟨hvalid, rfl⟩
    have hunits := hvalid.printable
    have hascii := exists_asciiText fun u hu => (hunits u hu).2
    have hoctets : ∀ b ∈ status.map (fun u => UInt8.ofNat u.toNat), 0x21 ≤ b.toNat ∧ b.toNat ≤ 0x7E := by
      intro b hb
      obtain ⟨u, hu, rfl⟩ := List.mem_map.mp hb
      have := hunits u hu
      rwa [toNat_ofNat_uint8 (by omega)]
    have hfield := textEncode_asciiText fun b hb => (hoctets b hb).2
    rw [hascii] at hfield
    rw [hfield, hascii]
    refine ⟨?_, hvalid, rfl⟩
    rintro ⟨b, hb, hout⟩
    have := hoctets b hb
    omega

/-! ## Records -/

theorem sequence_pathOf_iff {fields : List Bytes} {paths : List Text} :
    sequence (fields.map pathOf) = .ok paths ↔
      (∀ path ∈ paths, WellFormed path) ∧ paths.map textEncode = fields := by
  have hall : sequence (fields.map pathOf) = .ok paths ↔ fields.map pathOf = paths.map Except.ok :=
    ⟨sequence_eq_ok, fun h => h ▸ sequence_ok paths⟩
  rw [hall]
  clear hall
  induction fields generalizing paths with
  | nil => cases paths <;> simp
  | cons field fields ih =>
      cases paths with
      | nil => simp
      | cons path paths =>
          simp only [List.map_cons, List.cons.injEq, pathOf_eq_ok_iff, ih, List.forall_mem_cons]
          tauto

/-- What the fields of a record ask of it. -/
structure Readable (change : Change) : Prop where
  status : ValidStatus change.status
  count : change.paths.length = pathCount change.status
  paths : ∀ path ∈ change.paths, WellFormed path

/-- One record of the loop. -/
theorem changesFrom_field {maximumRecords : Int} {count : Nat} {field : Bytes}
    {rest : List Bytes} {changes : List Change} :
    changesFrom maximumRecords count (field :: rest) = .ok changes ↔
      count < maximumRecords ∧ ∃ change tail, Readable change
        ∧ change.fields ++ rest.drop (pathCount change.status) = field :: rest
        ∧ changesFrom maximumRecords (count + 1) (rest.drop (pathCount change.status)) = .ok tail
        ∧ changes = change :: tail := by
  rw [changesFrom]
  simp only [bind_eq_ok_iff, failWhen_eq_ok_iff, exists_const, Except.ok.injEq, not_le,
    statusOf_eq_ok_iff, sequence_pathOf_iff, not_lt]
  refine and_congr_right fun _ => ?_
  constructor
  · rintro ⟨status, ⟨hstatus, rfl⟩, hlength, paths, ⟨hpaths, htake⟩, tail, htail, rfl⟩
    refine ⟨⟨status, paths⟩, tail, ⟨hstatus, ?_, hpaths⟩, ?_, htail, rfl⟩
    · have := congrArg List.length htake
      rw [List.length_map, List.length_take] at this
      exact this.trans (Nat.min_eq_left hlength)
    · rw [Change.fields, htake, List.cons_append, List.take_append_drop]
  · rintro ⟨⟨status, paths⟩, tail, ⟨hstatus, hcount, hpaths⟩, hfields, htail, rfl⟩
    have hwritten : textEncode status :: (paths.map textEncode ++ rest.drop (pathCount status))
        = field :: rest := hfields
    have hcount : paths.length = pathCount status := hcount
    obtain ⟨hfield, hrest⟩ := List.cons.inj hwritten
    have hlength := congrArg List.length hrest
    rw [List.length_append, List.length_map, hcount, List.length_drop] at hlength
    have htake : rest.take (pathCount status) = paths.map textEncode := by
      rw [← hrest, List.take_left' (by rw [List.length_map]; exact hcount)]
    exact ⟨status, ⟨hstatus, hfield⟩, by omega, paths, ⟨hpaths, htake.symm⟩, tail, htail, rfl⟩

/-- **Records.**  The loop inverts the writing of the fields. -/
theorem changesFrom_eq_ok_iff {maximumRecords : Int} {count : Nat} {fields : List Bytes}
    {changes : List Change} : changesFrom maximumRecords count fields = .ok changes ↔
      (changes = [] ∨ count + changes.length ≤ maximumRecords)
        ∧ (∀ change ∈ changes, Readable change) ∧ changes.flatMap Change.fields = fields := by
  induction hlength : fields.length using Nat.strongRecOn generalizing fields count changes with
  | ind n ih =>
      subst hlength
      cases fields with
      | nil =>
          rw [changesFrom]
          cases changes with
          | nil => simp
          | cons change changes => simp [Change.fields]
      | cons field rest =>
          have hrest : ∀ {change tail},
              changesFrom maximumRecords (count + 1) (rest.drop (pathCount change.status)) = .ok tail
                ↔ (tail = [] ∨ (count + 1 : Nat) + tail.length ≤ maximumRecords)
                  ∧ (∀ change ∈ tail, Readable change)
                  ∧ tail.flatMap Change.fields = rest.drop (pathCount (Change.status change)) :=
            ih _ (by rw [List.length_drop, List.length_cons]; omega) rfl
          rw [changesFrom_field]
          constructor
          · rintro ⟨hless, change, tail, hchange, hfields, htail, rfl⟩
            obtain ⟨hcount, hall, hwritten⟩ := hrest.mp htail
            refine ⟨.inr ?_, List.forall_mem_cons.mpr ⟨hchange, hall⟩, ?_⟩
            · rw [List.length_cons]
              rcases hcount with rfl | hcount
              · rw [List.length_nil]
                omega
              · omega
            · rw [List.flatMap_cons, hwritten, hfields]
          · rintro ⟨hcount, hall, hwritten⟩
            cases changes with
            | nil => cases hwritten
            | cons change tail =>
                obtain ⟨hchange, hall⟩ := List.forall_mem_cons.mp hall
                have hless := hcount.resolve_left (List.cons_ne_nil _ _)
                rw [List.length_cons] at hless
                rw [List.flatMap_cons] at hwritten
                have hdrop : rest.drop (pathCount change.status) = tail.flatMap Change.fields := by
                  have hsplit := congrArg (List.drop (pathCount change.status + 1)) hwritten
                  rw [List.drop_left' (by rw [Change.fields, List.length_cons, List.length_map,
                    hchange.count]), List.drop_succ_cons] at hsplit
                  exact hsplit.symm
                refine ⟨by omega, change, tail, hchange, ?_, ?_, rfl⟩
                · rw [hdrop, hwritten]
                · exact hrest.mpr ⟨.inr (by omega), hall, hdrop.symm⟩

/-! ## The parser and its inverse -/

/-- A record that can be written down: a status of Git, with as many paths as it
asks for, that are not empty, valid and without NUL. -/
structure ValidChange (change : Change) : Prop where
  status : ValidStatus change.status
  count : change.paths.length = pathCount change.status
  paths : ∀ path ∈ change.paths, path ≠ [] ∧ WellFormed path ∧ 0 ∉ path

/-- Records whose bytes are within limits that can be asked for. -/
structure Within (limits : Limits) (changes : List Change) : Prop where
  safeRecords : isSafeInteger limits.maximumRecords = true
  someRecords : 1 ≤ limits.maximumRecords
  safeBytes : isSafeInteger limits.maximumBytes = true
  someBytes : 0 ≤ limits.maximumBytes
  records : changes.length ≤ limits.maximumRecords
  bytes : (serialize changes).length ≤ limits.maximumBytes

theorem validChange_iff {change : Change} :
    ValidChange change ↔ Readable change ∧ ∀ field ∈ change.fields, IsField field := by
  have hpath : ∀ path, WellFormed path → (IsField (textEncode path) ↔ path ≠ [] ∧ 0 ∉ path) :=
    fun path h => by rw [IsField, Ne, textEncode_eq_nil_iff h, zero_mem_textEncode_iff h]
  constructor
  · rintro ⟨hstatus, hcount, hpaths⟩
    refine ⟨⟨hstatus, hcount, fun path h => (hpaths path h).2.1⟩, ?_⟩
    refine List.forall_mem_cons.mpr ⟨(hpath _ (wellFormed_of_ascii fun u hu => ?_)).mpr ⟨?_, ?_⟩, ?_⟩
    · have := hstatus.printable u hu
      omega
    · rintro hnil
      rw [hnil] at hstatus
      cases hstatus
    · intro hzero
      have := (hstatus.printable 0 hzero).1
      simp at this
    · intro field hfield
      obtain ⟨path, hmem, rfl⟩ := List.mem_map.mp hfield
      obtain ⟨hne, hwell, hzero⟩ := hpaths path hmem
      exact (hpath path hwell).mpr ⟨hne, hzero⟩
  · rintro ⟨⟨hstatus, hcount, hpaths⟩, hfields⟩
    refine ⟨hstatus, hcount, fun path hmem => ?_⟩
    have hfield := hfields _ (List.mem_cons_of_mem _ (List.mem_map_of_mem hmem))
    obtain ⟨hne, hzero⟩ := (hpath path (hpaths path hmem)).mp hfield
    exact ⟨hne, hpaths path hmem, hzero⟩

/-- A record has at most three fields. -/
theorem length_fields_le {changes : List Change} (h : ∀ change ∈ changes, Readable change) :
    (changes.flatMap Change.fields).length ≤ 3 * changes.length := by
  induction changes with
  | nil => exact Nat.le_refl _
  | cons change changes ih =>
      obtain ⟨hchange, hall⟩ := List.forall_mem_cons.mp h
      have hcount : pathCount change.status ≤ 2 := by
        unfold pathCount
        split <;> omega
      have := ih hall
      rw [List.flatMap_cons, List.length_append, List.length_cons, Change.fields, List.length_cons,
        List.length_map, hchange.count]
      omega

/-- **The framing.**  The parser accepts exactly the serializations of valid
records within the limits, and returns those records. -/
theorem parseGitNameStatus_iff {limits : Limits} {bytes : Bytes} {changes : List Change} :
    parseGitNameStatus limits bytes = .ok changes ↔
      Within limits changes ∧ (∀ change ∈ changes, ValidChange change)
        ∧ serialize changes = bytes := by
  have hvalid : (∀ change ∈ changes, ValidChange change) ↔ (∀ change ∈ changes, Readable change)
      ∧ ∀ field ∈ changes.flatMap Change.fields, IsField field := by
    simp only [validChange_iff, List.mem_flatMap, forall_exists_index, and_imp]
    exact ⟨fun h => ⟨fun c hc => (h c hc).1, fun f c hc hf => (h c hc).2 f hf⟩,
      fun h c hc => ⟨h.1 c hc, fun f hf => h.2 f c hc hf⟩⟩
  simp only [parseGitNameStatus, bind_eq_ok_iff, failWhen_eq_ok_iff, exists_const, not_or,
    Bool.not_eq_false, not_lt, fieldsOf_eq_ok_iff, changesFrom_eq_ok_iff, hvalid, Nat.cast_zero,
    zero_add]
  constructor
  · rintro ⟨⟨hsafe, hone⟩, ⟨hsafe', hzero⟩, hbytes, fields, ⟨-, hfields, rfl⟩, hcount, hread, rfl⟩
    refine ⟨⟨hsafe, hone, hsafe', hzero, ?_, hbytes⟩, ⟨hread, hfields⟩, rfl⟩
    rcases hcount with rfl | hcount
    · rw [List.length_nil]
      omega
    · exact hcount
  · rintro ⟨hwithin, ⟨hread, hfields⟩, rfl⟩
    refine ⟨⟨hwithin.safeRecords, hwithin.someRecords⟩, ⟨hwithin.safeBytes, hwithin.someBytes⟩,
      hwithin.bytes, _, ⟨.inr ?_, hfields, rfl⟩, .inr hwithin.records, hread, rfl⟩
    have := length_fields_le hread
    have := hwithin.records
    omega

/-- The default limits can be asked for. -/
example : Within defaultLimits [] := by constructor <;> decide

end NameStatus

end SingularityFlow
