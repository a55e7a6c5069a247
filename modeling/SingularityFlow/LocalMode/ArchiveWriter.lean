/-
# What the writer writes

`writeLocArchive_eq_ok_iff`: the writer succeeds on the entries that are
`Writable`, and then its file is the layout of their members, each of which
bears its path, encoded, as both of its names.

The writer streams: it writes a header whose CRC is zero, the content behind
it, and then goes back to write the CRC.  `writeMember_eq_ok_iff` says that
one pass appends the octets of a member to the file; it is the only place
where the CRC is patched.
-/
import SingularityFlow.LocalMode.ArchiveReader

namespace SingularityFlow

open Ecma

namespace LocalMode

/-! ## Writing at a position -/

theorem writeAt_end (file bytes : Bytes) : writeAt file bytes file.length = file ++ bytes := by
  simp [writeAt]

/-- Octets that are written over as many octets replace these and no others. -/
theorem writeAt_replace (pre post : Bytes) {old new : Bytes} (h : old.length = new.length) :
    writeAt (pre ++ (old ++ post)) new pre.length = pre ++ (new ++ post) := by
  have hdrop : (pre ++ (old ++ post)).drop (pre.length + new.length) = post := by
    rw [← h, List.drop_append, List.drop_append]
    simp
  rw [writeAt, hdrop]
  simp

/-- The chunks of a member stand behind the file in their order. -/
theorem writeChunks_end (file : Bytes) (crc : UInt32) (chunks : List Bytes) :
    writeChunks file file.length crc chunks =
      (file ++ chunks.flatten, file.length + chunks.flatten.length,
        crcUpdate crc chunks.flatten) := by
  induction chunks generalizing file crc with
  | nil => simp [writeChunks, crcUpdate]
  | cons chunk chunks ih =>
      rw [writeChunks, writeAt_end, ← List.length_append, ih, List.flatten_cons, crcUpdate_append]
      simp [Nat.add_assoc]

/-- The octets of a local header before its CRC, and behind it. -/
theorem localFields_split (n s c : Nat) :
    record (localFields n s c) =
      record ((localFields n s 0).take 6) ++ (leBytes 4 c ++ record ((localFields n s 0).drop 7)) := by
  simp [localFields]

theorem localFields_take_length (n s : Nat) :
    (record ((localFields n s 0).take 6)).length = 14 := by
  rw [record_length]
  simp [localFields]

/-- **Patching the CRC.**  A header with a zero CRC becomes the header with the CRC. -/
theorem writeAt_crc (file rest : Bytes) (n s c : Nat) :
    writeAt (file ++ (record (localFields n s 0) ++ rest)) (leBytes 4 c) (file.length + 14) =
      file ++ (record (localFields n s c) ++ rest) := by
  rw [localFields_split n s 0, localFields_split n s c]
  have h := writeAt_replace (file ++ record ((localFields n s 0).take 6))
    (record ((localFields n s 0).drop 7) ++ rest)
    (show (leBytes 4 0).length = (leBytes 4 c).length by simp)
  rw [List.length_append, localFields_take_length] at h
  simpa only [List.append_assoc] using h

/-! ## The members of entries -/

/-- The content that a source delivers. -/
def ArchiveEntry.content (entry : ArchiveEntry) : Bytes :=
  match sourceChunks entry.path entry.source with
  | .ok chunks => chunks.flatten
  | .error _ => []

/-- The member that an entry becomes. -/
def ArchiveEntry.member (entry : ArchiveEntry) : Member :=
  ⟨entry.path, entry.mode, entry.content, textEncode entry.path, textEncode entry.path⟩

/-- An entry that the writer can archive. -/
structure EntryOk (tables : UnicodeTables) (entry : ArchiveEntry) : Prop where
  portable : Portable tables entry.path
  mode : entry.mode = js "0644" ∨ entry.mode = js "0755"
  size : sourceSize entry.path entry.source = .ok entry.content.length
  delivered : ∃ chunks, sourceChunks entry.path entry.source = .ok chunks
  contentLength : entry.content.length < 2 ^ 32
  nameLength : (textEncode entry.path).length < 2 ^ 16

/-- The ceiling for the content of an archive. -/
def maximumWritten : Nat :=
  LocLimits.maximumContentBytes + LocLimits.maximumManifestBytes + LocLimits.maximumEnvelopeBytes

variable {tables : UnicodeTables}

theorem content_of_chunks {entry : ArchiveEntry} {chunks : List Bytes}
    (h : sourceChunks entry.path entry.source = .ok chunks) :
    entry.content = chunks.flatten := by
  rw [ArchiveEntry.content, h]

theorem localHeader_eq_ok_iff {nameBytes header : Bytes} {size : Nat} :
    localHeader nameBytes size = .ok header ↔
      nameBytes.length < 2 ^ 16 ∧
        record (localFields nameBytes.length size 0) ++ nameBytes = header := by
  unfold localHeader
  split
  · next h => exact ⟨fun he => (by cases he), fun he => absurd he.1 (by omega)⟩
  · next h => exact ⟨fun he => ⟨by omega, Except.ok.inj he⟩, fun he => congrArg _ he.2⟩

/-- The three writes of one pass, at the end of the file and back in its header. -/
theorem writeAt_member {entry : ArchiveEntry} {chunks : List Bytes} (file : Bytes)
    (h : sourceChunks entry.path entry.source = .ok chunks) :
    let header := record (localFields (textEncode entry.path).length chunks.flatten.length 0)
      ++ textEncode entry.path
    let pumped := writeChunks (writeAt file header file.length) (file.length + header.length)
      0xffffffff chunks
    (pumped.2.2 ^^^ 0xffffffff).toNat = (crc32 entry.content).toNat ∧
      writeAt pumped.1 (leBytes 4 (crc32 entry.content).toNat) (file.length + 14) =
        file ++ entry.member.localBytes ∧
      pumped.2.1 = (file ++ entry.member.localBytes).length := by
  intro header pumped
  have hpumped : pumped = (file ++ header ++ entry.content,
      (file ++ header).length + entry.content.length, crcUpdate 0xffffffff entry.content) := by
    simp only [pumped]
    rw [writeAt_end, ← List.length_append, writeChunks_end, content_of_chunks h]
  rw [hpumped]
  dsimp only [header]
  rw [← content_of_chunks h]
  refine ⟨rfl, ?_, ?_⟩
  · rw [List.append_assoc, List.append_assoc, writeAt_crc]
    rfl
  · simp only [List.length_append, record_length, localBytes_length, localFields_sum,
      ArchiveEntry.member]
    omega

/-- **One pass of the loop appends the octets of one member.** -/
theorem writeMember_eq_ok_iff {state next : WriterState} {entry : ArchiveEntry}
    (hpos : state.position = state.file.length) :
    writeMember tables state entry = .ok next ↔
      EntryOk tables entry ∧ state.contentBytes + entry.content.length ≤ maximumWritten ∧
        next = ⟨state.file ++ entry.member.localBytes,
          (state.file ++ entry.member.localBytes).length,
          state.contentBytes + entry.content.length,
          state.written ++ [entry.member.written state.file.length]⟩ := by
  simp only [writeMember, bind_eq_ok_iff, failIf_eq_ok_iff, localHeader_eq_ok_iff, not_lt,
    exists_const, gt_iff_lt, Except.ok.injEq, ne_eq, not_not, hpos]
  constructor
  · rintro ⟨_, hportable, hmode, size, hsize, hlt, htotal, _, ⟨hname, rfl⟩, chunks, hchunks, rfl,
      rfl⟩
    obtain ⟨hcrc, hfile, hposition⟩ := writeAt_member state.file hchunks
    have hcontent := content_of_chunks hchunks
    rw [← hcontent] at hsize hlt htotal
    refine ⟨⟨portable_of_eq_ok hportable, ?_, hsize, ⟨chunks, hchunks⟩, by omega, hname⟩, htotal, ?_⟩
    · by_contra hne
      exact hmode ⟨fun h => hne (Or.inl h), fun h => hne (Or.inr h)⟩
    · rw [hcrc, hfile, hposition, ← hcontent]
      rfl
  · rintro ⟨hok, htotal, rfl⟩
    obtain ⟨chunks, hchunks⟩ := hok.delivered
    obtain ⟨hcrc, hfile, hposition⟩ := writeAt_member state.file hchunks
    have hcontent := content_of_chunks hchunks
    refine ⟨entry.path, hok.portable, ?_, _, hok.size, ?_, htotal, _, ⟨hok.nameLength, rfl⟩, chunks,
      hchunks, congrArg _ hcontent.symm, ?_⟩
    · rintro ⟨h₁, h₂⟩
      exact hok.mode.elim h₁ h₂
    · have := hok.contentLength
      omega
    · rw [hcontent, hcrc, hfile, hposition, ← hcontent]
      rfl

/-! ## The loops of the writer -/

theorem entriesFrom_append (offset : Nat) (ms : List Member) (m : Member) :
    entriesFrom offset (ms ++ [m]) =
      entriesFrom offset ms ++ [m.written (offset + (locals ms).length)] := by
  induction ms generalizing offset with
  | nil => rfl
  | cons n ms ih =>
      rw [List.cons_append, entriesFrom, ih, locals_cons, List.length_append, Nat.add_assoc]
      rfl

/-- The state of the writer behind the given members. -/
def stateOf (ms : List Member) (contentBytes : Nat) : WriterState :=
  ⟨locals ms, (locals ms).length, contentBytes, entriesFrom 0 ms⟩

/-- One pass adds one member. -/
theorem writeMember_stateOf {ms : List Member} {total : Nat} {entry : ArchiveEntry}
    {next : WriterState} :
    writeMember tables (stateOf ms total) entry = .ok next ↔
      EntryOk tables entry ∧ total + entry.content.length ≤ maximumWritten ∧
        next = stateOf (ms ++ [entry.member]) (total + entry.content.length) := by
  rw [writeMember_eq_ok_iff rfl]
  have hlocals : locals (ms ++ [entry.member]) = locals ms ++ entry.member.localBytes := by
    rw [locals, locals, List.flatMap_append, List.flatMap_singleton]
  rw [stateOf, stateOf, hlocals, entriesFrom_append, Nat.zero_add]

/-- **What the loop over the ordered entries writes** behind the members `ms`. -/
theorem writeMembers_eq_ok_iff : ∀ {entries : List ArchiveEntry} {ms : List Member} {total : Nat}
    {next : WriterState}, total ≤ maximumWritten →
    (writeMembers tables (stateOf ms total) entries = .ok next ↔
      (∀ entry ∈ entries, EntryOk tables entry) ∧
        total + (entries.map (·.content.length)).sum ≤ maximumWritten ∧
        next = stateOf (ms ++ entries.map (·.member))
          (total + (entries.map (·.content.length)).sum))
  | [], ms, total, next, h => by
      simp only [writeMembers, Except.ok.injEq, List.map_nil, List.append_nil, List.sum_nil,
        Nat.add_zero, List.not_mem_nil, false_implies, implies_true, true_and, h]
      exact eq_comm
  | entry :: rest, ms, total, next, h => by
      simp only [writeMembers, bind_eq_ok_iff, writeMember_stateOf, List.map_cons, List.sum_cons,
        List.forall_mem_cons]
      constructor
      · rintro ⟨_, ⟨hok, htotal, rfl⟩, hrest⟩
        obtain ⟨hoks, hsum, rfl⟩ := (writeMembers_eq_ok_iff htotal).mp hrest
        rw [List.append_assoc, List.singleton_append, Nat.add_assoc]
        exact ⟨⟨hok, hoks⟩, by omega, rfl⟩
      · rintro ⟨⟨hok, hoks⟩, hsum, rfl⟩
        refine ⟨_, ⟨hok, by omega, rfl⟩, (writeMembers_eq_ok_iff (by omega)).mpr
          ⟨hoks, by omega, ?_⟩⟩
        rw [List.append_assoc, List.singleton_append, Nat.add_assoc]

/-- An entry and the name that the writer gives it. -/
def withName (entry : Written) : Written × Bytes := (entry, textEncode entry.path)

theorem centralHeader_eq_ok_iff {entry : Written} {central : Bytes} :
    centralHeader entry = .ok central ↔
      ((textEncode entry.path).length < 2 ^ 16 ∧ entry.localOffset < 2 ^ 32) ∧
        centralBytes (withName entry) = central := by
  unfold centralHeader
  dsimp only
  split
  · next h => exact ⟨fun he => (by cases he), fun he => absurd he.1 (by omega)⟩
  · next h => exact ⟨fun he => ⟨by omega, Except.ok.inj he⟩, fun he => congrArg _ he.2⟩

theorem writeCentral_eq_ok_iff : ∀ {written : List Written} {file : Bytes} {r : Bytes × Nat},
    writeCentral file file.length written = .ok r ↔
      (∀ e ∈ written, (textEncode e.path).length < 2 ^ 16 ∧ e.localOffset < 2 ^ 32) ∧
        r = (file ++ centrals (written.map withName),
          file.length + (centrals (written.map withName)).length)
  | [], file, r => by
      simp only [writeCentral, Except.ok.injEq, centrals, List.map_nil, List.flatMap_nil,
        List.append_nil, List.length_nil, Nat.add_zero, List.not_mem_nil, false_implies,
        implies_true, true_and]
      exact eq_comm
  | e :: written, file, r => by
      simp only [writeCentral, bind_eq_ok_iff, centralHeader_eq_ok_iff, List.forall_mem_cons,
        List.map_cons, centrals_cons]
      constructor
      · rintro ⟨_, ⟨he, rfl⟩, hrest⟩
        rw [writeAt_end, ← List.length_append] at hrest
        obtain ⟨hes, rfl⟩ := writeCentral_eq_ok_iff.mp hrest
        refine ⟨⟨he, hes⟩, ?_⟩
        simp only [List.append_assoc, List.length_append, Nat.add_assoc]
      · rintro ⟨⟨he, hes⟩, rfl⟩
        refine ⟨_, ⟨he, rfl⟩, ?_⟩
        rw [writeAt_end, ← List.length_append]
        refine writeCentral_eq_ok_iff.mpr ⟨hes, ?_⟩
        simp only [List.append_assoc, List.length_append, Nat.add_assoc]

/-- The directory that the writer writes is the directory of its members. -/
theorem centrals_withName : ∀ {ms : List Member} (offset : Nat),
    (∀ m ∈ ms, m.centralName = textEncode m.path) →
    centrals ((entriesFrom offset ms).map withName) = directory offset ms
  | [], _, _ => rfl
  | m :: ms, offset, h => by
      obtain ⟨hm, hms⟩ := List.forall_mem_cons.mp h
      have ih := centrals_withName (offset + m.localBytes.length) hms
      rw [directory] at ih ⊢
      rw [entriesFrom, List.map_cons, centrals_cons, ih, List.map_cons, List.zip_cons_cons,
        centrals_cons, hm]
      rfl

/-! ## The archives that are written -/

/-- The order in which the writer archives its entries. -/
def orderedEntries (entries : List ArchiveEntry) : List ArchiveEntry :=
  entries.insertionSort fun left right => comparePath left.path right.path

/-- The members of an archive that the writer writes. -/
def membersOf (entries : List ArchiveEntry) : List Member :=
  (orderedEntries entries).map ArchiveEntry.member

/-- Entries that the writer can archive. -/
structure Writable (tables : UnicodeTables) (entries : List ArchiveEntry) : Prop where
  members : ∀ entry ∈ entries, EntryOk tables entry
  nonempty : entries ≠ []
  count : entries.length ≤ LocLimits.maximumFiles + 2
  content : (entries.map (·.content.length)).sum ≤ maximumWritten
  unique : (entries.map fun entry => pathIdentity tables entry.path).Nodup
  size : (layout (membersOf entries)).length ≤ LocLimits.maximumArchiveBytes

theorem mem_orderedEntries {entries : List ArchiveEntry} {entry : ArchiveEntry} :
    entry ∈ orderedEntries entries ↔ entry ∈ entries :=
  List.mem_insertionSort _

theorem orderedEntries_perm (entries : List ArchiveEntry) :
    (orderedEntries entries).Perm entries :=
  List.perm_insertionSort _ entries

theorem membersOf_centralName (entries : List ArchiveEntry) :
    ∀ m ∈ membersOf entries, m.centralName = textEncode m.path :=
  List.forall_mem_map.mpr fun _ _ => rfl

theorem membersOf_length (entries : List ArchiveEntry) :
    (membersOf entries).length = entries.length := by
  rw [membersOf, List.length_map, (orderedEntries_perm entries).length_eq]

/-- The loop over all entries. -/
theorem writeMembers_ordered {entries : List ArchiveEntry} {next : WriterState} :
    writeMembers tables ⟨[], 0, 0, []⟩ (orderedEntries entries) = .ok next ↔
      (∀ entry ∈ entries, EntryOk tables entry) ∧
        (entries.map (·.content.length)).sum ≤ maximumWritten ∧
        next = stateOf (membersOf entries) (entries.map (·.content.length)).sum := by
  have hperm := orderedEntries_perm entries
  rw [show (⟨[], 0, 0, []⟩ : WriterState) = stateOf [] 0 from rfl,
    writeMembers_eq_ok_iff (Nat.zero_le maximumWritten)]
  simp only [List.nil_append, Nat.zero_add, (hperm.map _).sum_eq, hperm.mem_iff]
  exact Iff.rfl

theorem unique_orderedEntries {entries : List ArchiveEntry} :
    (((orderedEntries entries).map (·.path)).map (pathIdentity tables)).Nodup ↔
      (entries.map fun entry => pathIdentity tables entry.path).Nodup := by
  rw [List.map_map]
  exact ((orderedEntries_perm entries).map _).nodup_iff

/-- **The writer writes the layout of its members.** -/
theorem writeLocArchive_eq_ok_iff {entries : List ArchiveEntry} {r : Bytes × List Written} :
    writeLocArchive tables entries = .ok r ↔
      Writable tables entries ∧
        r = (layout (membersOf entries), entriesFrom 0 (membersOf entries)) := by
  have hend := centrals_withName 0 (membersOf_centralName entries)
  have hcount := entriesFrom_length 0 (membersOf entries)
  rw [membersOf_length] at hcount
  simp only [writeLocArchive, bind_eq_ok_iff, failIf_eq_ok_iff, ← orderedEntries.eq_1,
    assertUniquePortablePaths_eq_ok_iff, unique_orderedEntries, writeMembers_ordered,
    not_or, not_lt, exists_const, gt_iff_lt, Except.ok.injEq]
  have hfile : writeAt (locals (membersOf entries) ++ directory 0 (membersOf entries))
      (record (endFields (entriesFrom 0 (membersOf entries)).length
        ((locals (membersOf entries)).length + (directory 0 (membersOf entries)).length
          - (locals (membersOf entries)).length) (locals (membersOf entries)).length))
      ((locals (membersOf entries)).length + (directory 0 (membersOf entries)).length) =
      layout (membersOf entries) := by
    rw [← List.length_append, writeAt_end, List.length_append, Nat.add_sub_cancel_left,
      entriesFrom_length, layout, List.append_assoc]
  constructor
  · rintro ⟨⟨hne, hle⟩, ⟨-, hunique⟩, _, ⟨hmembers, hcontent, rfl⟩, _, hcentral, -, hsize, rfl⟩
    dsimp only [stateOf] at hcentral hsize ⊢
    obtain ⟨-, rfl⟩ := writeCentral_eq_ok_iff.mp hcentral
    rw [hend] at hsize ⊢
    exact ⟨⟨hmembers, hne, hle, hcontent, hunique, by rw [layout_length]; exact hsize⟩,
      Prod.ext hfile rfl⟩
  · rintro ⟨h, rfl⟩
    have hsize := h.size
    rw [layout_length] at hsize
    obtain ⟨hlocals, hdirectory⟩ := directory_length_lt h.size
    have hnames : ∀ e ∈ entriesFrom 0 (membersOf entries),
        (textEncode e.path).length < 2 ^ 16 ∧ e.localOffset < 2 ^ 32 := by
      intro e he
      have hpath : e.path ∈ (membersOf entries).map (·.path) :=
        entriesFrom_paths 0 (membersOf entries) ▸ List.mem_map_of_mem he
      rw [membersOf, List.map_map] at hpath
      obtain ⟨entry, hentry, hpath⟩ := List.mem_map.mp hpath
      have hname := (h.members entry (mem_orderedEntries.mp hentry)).nameLength
      have hlt := localOffset_lt e he
      exact ⟨by rwa [← hpath], by omega⟩
    refine ⟨⟨h.nonempty, h.count⟩, ⟨?_, h.unique⟩, _, ⟨h.members, h.content, rfl⟩, _,
      writeCentral_eq_ok_iff.mpr ⟨hnames, rfl⟩, ?_, ?_, ?_⟩
    · exact List.forall_mem_map.mpr fun entry hentry =>
        (h.members entry (mem_orderedEntries.mp hentry)).portable
    · dsimp only [stateOf]
      rw [hend, hcount]
      have := h.count
      rw [LocLimits.maximumFiles] at this
      refine ⟨by omega, by omega, by omega⟩
    · dsimp only [stateOf]
      rw [hend]
      exact hsize
    · dsimp only [stateOf]
      rw [hend, hfile]

end LocalMode

end SingularityFlow
