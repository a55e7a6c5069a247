/-
# The archive writer and reader

`writeLocArchive` streams its members in the order of their paths: a local
header with a zero CRC, the content, and then the CRC written back into the
header.  The central directory and the end record follow.
`inspectLocArchive` starts from the end record, walks the central directory,
and then checks every local member against its central entry.

A file is its octets.  A source that is a file delivers what `handle.read`
returned, read by read; the loops that repeat a partial `handle.write` or
`handle.read` are one operation here.
-/
import SingularityFlow.LocalMode.Contracts
import SingularityFlow.Lib.Sha256

namespace SingularityFlow

open Ecma

namespace LocalMode

/-! ## Constants -/

def localSignature : Nat := 0x04034b50
def centralSignature : Nat := 0x02014b50
def endSignature : Nat := 0x06054b50
def utf8Flag : Nat := 0x0800
def dosDate : Nat := 0x0021
def unixVersion : Nat := 0x0314
def version : Nat := 20
def regular : Nat := 0o100000

/-! ## CRC-32 -/

def crcStep (value : UInt32) : UInt32 :=
  (value >>> 1) ^^^ (if value &&& 1 ≠ 0 then 0xedb88320 else 0)

/-- An entry of `CRC_TABLE`. -/
def crcTable (index : UInt32) : UInt32 := crcStep^[8] index

def crcUpdate (crc : UInt32) (bytes : Bytes) : UInt32 :=
  bytes.foldl (fun value byte => crcTable ((value ^^^ byte.toUInt32) &&& 0xff) ^^^ (value >>> 8)) crc

def crc32 (bytes : Bytes) : UInt32 := crcUpdate 0xffffffff bytes ^^^ 0xffffffff

/-! ## Headers -/

/-- The fields of a local header, in the order of their offsets. -/
def localFields (nameLength size crc : Nat) : List (Nat × Nat) :=
  [(4, localSignature), (2, version), (2, utf8Flag), (2, 0), (2, 0), (2, dosDate), (4, crc),
    (4, size), (4, size), (2, nameLength), (2, 0)]

/-- `localHeader`; a name length of more than two octets is out of range. -/
def localHeader (nameBytes : Bytes) (size : Nat) : Except Failure Bytes :=
  if nameBytes.length > 0xffff then .error .rangeError
  else .ok (record (localFields nameBytes.length size 0) ++ nameBytes)

/-- `Number.parseInt(mode, 8)`. -/
def parseOctal (mode : Text) : Nat := mode.foldl (fun n u => 8 * n + (u.toNat - 0x30)) 0

def externalMode (mode : Text) : Nat := ((regular ||| parseOctal mode) <<< 16) % 2 ^ 32

/-- What the writer remembers of a member. -/
structure Written where
  path : Text
  mode : Text
  sizeBytes : Nat
  crc32 : Nat
  localOffset : Nat
deriving DecidableEq

/-- The fields of a central header, in the order of their offsets. -/
def centralFields (nameLength : Nat) (entry : Written) : List (Nat × Nat) :=
  [(4, centralSignature), (2, unixVersion), (2, version), (2, utf8Flag), (2, 0), (2, 0),
    (2, dosDate), (4, entry.crc32), (4, entry.sizeBytes), (4, entry.sizeBytes), (2, nameLength),
    (2, 0), (2, 0), (2, 0), (2, 0), (4, externalMode entry.mode), (4, entry.localOffset)]

def centralHeader (entry : Written) : Except Failure Bytes :=
  let name := textEncode entry.path
  if name.length > 0xffff ∨ entry.localOffset > 0xffffffff then .error .rangeError
  else .ok (record (centralFields name.length entry) ++ name)

/-- The fields of the end record, in the order of their offsets. -/
def endFields (count centralSize centralOffset : Nat) : List (Nat × Nat) :=
  [(4, endSignature), (2, 0), (2, 0), (2, count), (2, count), (4, centralSize), (4, centralOffset),
    (2, 0)]

/-! ## The writer -/

/-- Where the content of a member comes from: octets, or the reads that a
file with the given `stat` answered. -/
inductive Source where
  | bytes (bytes : Bytes)
  | file (isFile : Bool) (size : Nat) (reads : List Bytes) (unchanged : Bool)

/-- A member to be archived. -/
structure ArchiveEntry where
  path : Text
  mode : Text
  source : Source

def changedWhileRead (path : Text) : Failure :=
  .singularityFlow (js "Archive source " ++ path ++ js " changed while it was read.")
    (some (js "INPUT_CHANGED"))

/-- The chunks of a file of the given size, from `position` on. -/
def readSource (path : Text) (size : Nat) : Nat → List Bytes → Except Failure (List Bytes)
  | position, [] =>
      if position < size then .error (changedWhileRead path) else .ok []
  | position, answer :: rest =>
      if position < size then
        let chunk := answer.take (min (1024 * 1024) (size - position))
        if chunk = [] then .error (changedWhileRead path)
        else do
          let chunks ← readSource path size (position + chunk.length) rest
          .ok (chunk :: chunks)
      else .ok []

/-- The size that `withSource` reports. -/
def sourceSize (path : Text) : Source → Except Failure Nat
  | .bytes bytes => .ok bytes.length
  | .file isFile size _ _ =>
      if isFile = false ∨ size > LocLimits.maximumFileBytes then
        locFail (js "Archive source " ++ path ++ js " is not a supported regular file.")
          (js "EXPORT_PROFILE_UNSUPPORTED")
      else .ok size

/-- The chunks that `withSource` pumps. -/
def sourceChunks (path : Text) : Source → Except Failure (List Bytes)
  | .bytes bytes => .ok [bytes]
  | .file _ size reads unchanged => do
      let chunks ← readSource path size 0 reads
      failIf (unchanged = false) (changedWhileRead path)
      .ok chunks

/-- `handle.write` at a position; a gap behind the end of the file is zero. -/
def writeAt (file bytes : Bytes) (position : Nat) : Bytes :=
  file.take position ++ List.replicate (position - file.length) 0 ++ bytes
    ++ file.drop (position + bytes.length)

/-- The file being written and the variables of the writer. -/
structure WriterState where
  file : Bytes
  position : Nat
  contentBytes : Nat
  written : List Written

/-- The octets of `Buffer.compare`, as a total order of units. -/
def comparePath (left right : Text) : Prop :=
  LeUnits ((textEncode left).map UInt8.toUInt16) ((textEncode right).map UInt8.toUInt16)

instance : DecidableRel comparePath := fun left right =>
  inferInstanceAs (Decidable (LeUnits _ _))

variable (tables : UnicodeTables)

/-- The chunks of a member, written one behind the other, and their CRC. -/
def writeChunks (file : Bytes) (position : Nat) (crc : UInt32) :
    List Bytes → Bytes × Nat × UInt32
  | [] => (file, position, crc)
  | chunk :: rest =>
      writeChunks (writeAt file chunk position) (position + chunk.length) (crcUpdate crc chunk) rest

/-- One pass of the loop over the ordered entries. -/
def writeMember (state : WriterState) (entry : ArchiveEntry) : Except Failure WriterState := do
  let _ ← portablePath tables entry.path (isControl entry.path)
  failIf (entry.mode ≠ js "0644" ∧ entry.mode ≠ js "0755")
    (.singularityFlow (js "Archive member " ++ entry.path ++ js " has an invalid mode.")
      (some (js "LOCAL_RECORD_INVALID")))
  let size ← sourceSize entry.path entry.source
  failIf (size > 0xffffffff)
    (.singularityFlow (js "ZIP64 is not supported by loc.zip.store.v1.")
      (some (js "EXPORT_PROFILE_UNSUPPORTED")))
  let contentBytes := state.contentBytes + size
  failIf (contentBytes > LocLimits.maximumContentBytes + LocLimits.maximumManifestBytes
      + LocLimits.maximumEnvelopeBytes)
    (.singularityFlow (js "Archive content exceeds the registered profile.")
      (some (js "EXPORT_PROFILE_UNSUPPORTED")))
  let name := textEncode entry.path
  let offset := state.position
  let header ← localHeader name size
  let file := writeAt state.file header state.position
  let chunks ← sourceChunks entry.path entry.source
  let pumped := writeChunks file (state.position + header.length) 0xffffffff chunks
  failIf (chunks.flatten.length ≠ size)
    (.singularityFlow (js "Archive source " ++ entry.path ++ js " changed size.")
      (some (js "INPUT_CHANGED")))
  let crc := (pumped.2.2 ^^^ 0xffffffff).toNat
  .ok {
    file := writeAt pumped.1 (leBytes 4 crc) (offset + 14)
    position := pumped.2.1
    contentBytes
    written := state.written ++ [⟨entry.path, entry.mode, size, crc, offset⟩] }

/-- The loop over the ordered entries. -/
def writeMembers : WriterState → List ArchiveEntry → Except Failure WriterState
  | state, [] => .ok state
  | state, entry :: rest => do
      let next ← writeMember tables state entry
      writeMembers next rest

/-- The loop over the central directory. -/
def writeCentral : Bytes → Nat → List Written → Except Failure (Bytes × Nat)
  | file, position, [] => .ok (file, position)
  | file, position, entry :: rest => do
      let central ← centralHeader entry
      writeCentral (writeAt file central position) (position + central.length) rest

/-- `writeLocArchive`: the file that is written, and what is returned of its members. -/
def writeLocArchive (entries : List ArchiveEntry) : Except Failure (Bytes × List Written) := do
  failIf (entries = [] ∨ entries.length > LocLimits.maximumFiles + 2)
    (.singularityFlow (js "Archive member count exceeds the registered profile.")
      (some (js "EXPORT_PROFILE_UNSUPPORTED")))
  let ordered := entries.insertionSort fun left right => comparePath left.path right.path
  assertUniquePortablePaths tables (ordered.map (·.path))
  let state ← writeMembers tables ⟨[], 0, 0, []⟩ ordered
  let centralOffset := state.position
  let central ← writeCentral state.file state.position state.written
  let centralSize := central.2 - centralOffset
  failIf (state.written.length > 0xffff ∨ centralOffset > 0xffffffff ∨ centralSize > 0xffffffff)
    (.singularityFlow (js "ZIP64 is not supported by loc.zip.store.v1.")
      (some (js "EXPORT_PROFILE_UNSUPPORTED")))
  let file := writeAt central.1 (record (endFields state.written.length centralSize centralOffset))
    central.2
  failIf (central.2 + 22 > LocLimits.maximumArchiveBytes)
    (.singularityFlow (js "Archive exceeds the registered byte ceiling.")
      (some (js "EXPORT_PROFILE_UNSUPPORTED")))
  .ok (file, state.written)

/-! ## The reader -/

def integrity (message : Text) : Failure :=
  .singularityFlow message (some (js "BUNDLE_INTEGRITY_INVALID"))

def readExact (file : Bytes) (length position : Nat) : Except Failure Bytes :=
  if (slice file position length).length = length then .ok (slice file position length)
  else .error (integrity (js "Archive ended before its declared structure."))

def readUInt16LE (bytes : Bytes) (offset : Nat) : Nat := readField 2 bytes offset

def readUInt32LE (bytes : Bytes) (offset : Nat) : Nat := readField 4 bytes offset

def decodeName (bytes : Bytes) : Except Failure Text :=
  match decodeFatal bytes with
  | some name => .ok name
  | none => .error (integrity (js "Archive contains a non-UTF-8 member name."))

/-- The ceiling for a member of the given name. -/
def memberLimit (name : Text) : Nat :=
  if name = js "manifest.json" then LocLimits.maximumManifestBytes
  else if name = js "manifest.dsse.json" then LocLimits.maximumEnvelopeBytes
  else LocLimits.maximumFileBytes

/-- One pass of the loop over the central directory: the entry, the content
declared so far and the cursor behind the entry. -/
def readCentralMember (file : Bytes) (cursor declaredContentBytes : Nat) :
    Except Failure (Written × Nat × Nat) := do
  let fixed ← readExact file 46 cursor
  failIf (readUInt32LE fixed 0 ≠ centralSignature ∨ readUInt16LE fixed 4 ≠ unixVersion
      ∨ readUInt16LE fixed 6 ≠ version ∨ readUInt16LE fixed 8 ≠ utf8Flag
      ∨ readUInt16LE fixed 10 ≠ 0 ∨ readUInt16LE fixed 12 ≠ 0 ∨ readUInt16LE fixed 14 ≠ dosDate
      ∨ readUInt16LE fixed 30 ≠ 0 ∨ readUInt16LE fixed 32 ≠ 0 ∨ readUInt16LE fixed 34 ≠ 0
      ∨ readUInt16LE fixed 36 ≠ 0)
    (integrity (js "Bundle member metadata is outside loc.zip.store.v1."))
  let nameLength := readUInt16LE fixed 28
  failIf (nameLength = 0) (integrity (js "Bundle contains an empty member name."))
  let nameBytes ← readExact file nameLength (cursor + 46)
  let name ← decodeName nameBytes
  let _ ← portablePath tables name (isControl name)
  let rawMode := readUInt32LE fixed 38
  failIf (rawMode ≠ externalMode (js "0644") ∧ rawMode ≠ externalMode (js "0755"))
    (integrity (js "Bundle member " ++ name ++ js " has an unsupported file mode."))
  let mode := if rawMode = externalMode (js "0644") then js "0644" else js "0755"
  let sizeBytes := readUInt32LE fixed 24
  failIf (readUInt32LE fixed 20 ≠ sizeBytes)
    (integrity (js "Bundle member " ++ name ++ js " is not stored exactly."))
  failIf (sizeBytes > memberLimit name)
    (integrity (js "Bundle member '" ++ name ++ js "' exceeds its registered byte ceiling."))
  let declared := if isControl name then declaredContentBytes else declaredContentBytes + sizeBytes
  failIf (isControl name = false ∧ declared > LocLimits.maximumContentBytes)
    (integrity (js "Bundle payload exceeds its registered byte ceiling."))
  .ok (⟨name, mode, sizeBytes, readUInt32LE fixed 16, readUInt32LE fixed 42⟩, declared,
    cursor + 46 + nameLength)

/-- The loop over the central directory; `count` entries are left. -/
def readCentral (file : Bytes) : Nat → Nat → Nat → Except Failure (List Written × Nat)
  | 0, cursor, _ => .ok ([], cursor)
  | count + 1, cursor, declared => do
      let member ← readCentralMember tables file cursor declared
      let rest ← readCentral file count member.2.2 member.2.1
      .ok (member.1 :: rest.1, rest.2)

/-- What `inspectLocArchive` reports of a member. -/
structure Summary where
  entry : Written
  dataOffset : Nat
  sha256 : Text

/-- The chunks of a member, with fuel for the loop. -/
def readChunks (file : Bytes) : Nat → Nat → Nat → Except Failure (List Bytes)
  | 0, _, _ => .ok []
  | fuel + 1, offset, remaining =>
      if remaining = 0 then .ok []
      else do
        let length := min (1024 * 1024) remaining
        let chunk ← readExact file length offset
        let rest ← readChunks file fuel (offset + length) (remaining - length)
        .ok (chunk :: rest)

/-- One pass of the loop over the local members. -/
def readLocalMember (file : Bytes) (centralOffset expectedOffset : Nat) (entry : Written) :
    Except Failure (Summary × Nat) := do
  failIf (entry.localOffset ≠ expectedOffset ∨ entry.localOffset ≥ centralOffset)
    (integrity (js "Bundle local members overlap or contain gaps."))
  let fixed ← readExact file 30 entry.localOffset
  let nameLength := readUInt16LE fixed 26
  failIf (readUInt32LE fixed 0 ≠ localSignature ∨ readUInt16LE fixed 4 ≠ version
      ∨ readUInt16LE fixed 6 ≠ utf8Flag ∨ readUInt16LE fixed 8 ≠ 0 ∨ readUInt16LE fixed 10 ≠ 0
      ∨ readUInt16LE fixed 12 ≠ dosDate ∨ readUInt32LE fixed 14 ≠ entry.crc32
      ∨ readUInt32LE fixed 18 ≠ entry.sizeBytes ∨ readUInt32LE fixed 22 ≠ entry.sizeBytes
      ∨ readUInt16LE fixed 28 ≠ 0)
    (integrity (js "Bundle local header for " ++ entry.path ++ js " is inconsistent."))
  let nameBytes ← readExact file nameLength (entry.localOffset + 30)
  let localName ← decodeName nameBytes
  failIf (localName ≠ entry.path)
    (integrity (js "Bundle central and local member names differ."))
  let dataOffset := entry.localOffset + 30 + nameLength
  let chunks ← readChunks file entry.sizeBytes dataOffset entry.sizeBytes
  let crc := (chunks.foldl crcUpdate 0xffffffff ^^^ 0xffffffff).toNat
  failIf (crc ≠ entry.crc32)
    (integrity (js "Bundle member " ++ entry.path ++ js " failed CRC validation."))
  .ok (⟨entry, dataOffset, js "sha256:" ++ sha256Hex chunks.flatten⟩, dataOffset + entry.sizeBytes)

/-- The loop over the local members. -/
def readLocals (file : Bytes) (centralOffset : Nat) :
    Nat → List Written → Except Failure (List Summary × Nat)
  | expectedOffset, [] => .ok ([], expectedOffset)
  | expectedOffset, entry :: rest => do
      let member ← readLocalMember file centralOffset expectedOffset entry
      let others ← readLocals file centralOffset member.2 rest
      .ok (member.1 :: others.1, others.2)

/-- The bundle that `inspectLocArchive` returns; the entries are keyed by
path and listed in the order of insertion. -/
structure LocBundle where
  sizeBytes : Nat
  archiveSha256 : Text
  entries : List Summary

/-- `inspectLocArchive`, on a file that does not change while it is read. -/
def inspectLocArchive (file : Bytes) : Except Failure LocBundle := do
  failIf (file.length < 22 ∨ file.length > LocLimits.maximumArchiveBytes)
    (integrity (js "Bundle archive is outside the registered size profile."))
  let last ← readExact file 22 (file.length - 22)
  failIf (readUInt32LE last 0 ≠ endSignature ∨ readUInt16LE last 4 ≠ 0 ∨ readUInt16LE last 6 ≠ 0
      ∨ readUInt16LE last 8 ≠ readUInt16LE last 10 ∨ readUInt16LE last 20 ≠ 0)
    (integrity (js "Bundle does not use the registered single-disk ZIP profile."))
  let count := readUInt16LE last 10
  let centralSize := readUInt32LE last 12
  let centralOffset := readUInt32LE last 16
  failIf (count = 0 ∨ count > LocLimits.maximumFiles + 2
      ∨ centralOffset + centralSize ≠ file.length - 22)
    (integrity (js "Bundle central directory is inconsistent."))
  let central ← readCentral tables file count centralOffset 0
  failIf (central.2 ≠ centralOffset + centralSize)
    (integrity (js "Bundle central directory has trailing bytes."))
  assertUniquePortablePaths tables (central.1.map (·.path))
  let sorted := central.1.insertionSort fun left right => comparePath left.path right.path
  failIf (central.1.map (·.path) ≠ sorted.map (·.path))
    (integrity (js "Bundle entries are not in canonical path order."))
  let locals ← readLocals file centralOffset 0 central.1
  failIf (locals.2 ≠ centralOffset)
    (integrity (js "Bundle member layout does not end at its central directory."))
  .ok ⟨file.length, js "sha256:" ++ sha256Hex file, locals.1⟩

/-- The default of `maximumBytes` in `read`. -/
def defaultReadLimit : Nat := LocLimits.maximumManifestBytes

/-- `read(path, maximumBytes)` of an open bundle. -/
def LocBundle.read (bundle : LocBundle) (file : Bytes) (path : Text) (maximumBytes : Nat) :
    Except Failure Bytes :=
  match bundle.entries.find? (fun summary => summary.entry.path = path) with
  | none => .error (integrity (js "Bundle member " ++ path ++ js " is missing."))
  | some summary => do
      failIf (summary.entry.sizeBytes > maximumBytes)
        (integrity (js "Bundle member " ++ path ++ js " exceeds its read limit."))
      readExact file summary.entry.sizeBytes summary.dataOffset

end LocalMode

end SingularityFlow
