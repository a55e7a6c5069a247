/-
# Writer and reader against each other

Both directions of the round trip rest on the two characterisations: the
reader accepts the layouts of readable members, and the writer writes the
layout of members that bear their encoded paths as names.

Neither direction holds for every archive, because a name is decoded with a
decoder that drops a byte order mark.  `inspectLocArchive_rewrite_iff` says
for which accepted archives the writer gives the same octets again, and
`writeLocArchive_inspect_iff` for which written archives the reader reports
what was written.
-/
import SingularityFlow.LocalMode.ArchiveWriter

namespace SingularityFlow

open Ecma

namespace LocalMode

variable {tables : UnicodeTables}

/-! ## What a bundle reports -/

/-- The entries that a bundle reports: path, mode and the octets of the member. -/
def LocBundle.reportedEntries (bundle : LocBundle) (file : Bytes) : List ArchiveEntry :=
  bundle.entries.map fun summary =>
    ⟨summary.entry.path, summary.entry.mode,
      .bytes (slice file summary.dataOffset summary.entry.sizeBytes)⟩

/-- A member as an entry to be archived. -/
def Member.entry (m : Member) : ArchiveEntry := ⟨m.path, m.mode, .bytes m.content⟩

theorem content_slice {file : Bytes} {offset : Nat} {m : Member}
    (h : slice file offset m.localBytes.length = m.localBytes) :
    slice file (m.summary offset).dataOffset m.content.length = m.content := by
  have hlen : (record (localFields m.localName.length m.content.length
      (crc32 m.content).toNat)).length = 30 := by rw [record_length, localFields_sum]
  rw [Member.localBytes, List.length_append] at h
  obtain ⟨-, hrest⟩ := slice_eq_append_iff.mp h
  rw [List.length_append] at hrest
  obtain ⟨-, hcontent⟩ := slice_eq_append_iff.mp hrest
  rwa [hlen] at hcontent

theorem reported_of_slice {file : Bytes} : ∀ {ms : List Member} {offset : Nat},
    slice file offset (locals ms).length = locals ms →
    (summariesFrom offset ms).map (fun summary => (⟨summary.entry.path, summary.entry.mode,
      .bytes (slice file summary.dataOffset summary.entry.sizeBytes)⟩ : ArchiveEntry)) =
      ms.map Member.entry
  | [], _, _ => rfl
  | m :: ms, offset, h => by
      rw [locals_cons, List.length_append] at h
      obtain ⟨hm, hms⟩ := slice_eq_append_iff.mp h
      rw [summariesFrom, List.map_cons, reported_of_slice hms, List.map_cons]
      dsimp only [Member.summary, Member.written]
      rw [show offset + 30 + m.localName.length = (m.summary offset).dataOffset from rfl,
        content_slice hm]
      rfl

/-- The members stand at the beginning of their archive. -/
theorem locals_slice (ms : List Member) : slice (layout ms) 0 (locals ms).length = locals ms :=
  (eq_append_iff_slices.mp (layout.eq_1 ms)).2.1

theorem reportedEntries_bundleOf (ms : List Member) :
    (bundleOf ms).reportedEntries (layout ms) = ms.map Member.entry :=
  reported_of_slice (locals_slice ms)

/-! ## From the reader to the writer -/

/-- What the two control members add to the content of an archive. -/
def Member.controlLength (m : Member) : Nat := if isControl m.path then m.content.length else 0

/-- Each control member occurs at most once, within its own ceiling. -/
theorem controlLength_sum_le : ∀ {ms : List Member}, (ms.map Member.path).Nodup →
    (∀ m ∈ ms, m.content.length ≤ memberLimit m.path) →
    (ms.map Member.controlLength).sum ≤
      (if js "manifest.json" ∈ ms.map Member.path then LocLimits.maximumManifestBytes else 0)
        + (if js "manifest.dsse.json" ∈ ms.map Member.path then LocLimits.maximumEnvelopeBytes
            else 0)
  | [], _, _ => by simp
  | m :: ms, hnodup, hsize => by
      rw [List.map_cons, List.nodup_cons] at hnodup
      obtain ⟨hm, hms⟩ := List.forall_mem_cons.mp hsize
      have ih := controlLength_sum_le hnodup.2 hms
      have hne : js "manifest.json" ≠ js "manifest.dsse.json" := by decide
      rw [List.map_cons, List.map_cons, List.sum_cons]
      simp only [List.mem_cons]
      rw [show m.controlLength = if isControl m.path then m.content.length else 0 from rfl]
      by_cases h₁ : m.path = js "manifest.json"
      · rw [h₁] at hnodup hm
        rw [if_neg hnodup.1] at ih
        rw [memberLimit, if_pos rfl] at hm
        rw [h₁, if_pos (by decide), if_pos (Or.inl rfl)]
        simp only [hne.symm, false_or]
        omega
      · by_cases h₂ : m.path = js "manifest.dsse.json"
        · rw [h₂] at hnodup hm
          rw [if_neg hnodup.1] at ih
          rw [memberLimit, if_neg hne.symm, if_pos rfl] at hm
          rw [h₂, if_pos (by decide), if_pos (Or.inl rfl)]
          simp only [hne, false_or]
          omega
        · rw [if_neg (by simp [isControl, h₁, h₂])]
          simp only [Ne.symm h₁, Ne.symm h₂, false_or]
          omega

theorem content_sum (ms : List Member) :
    (ms.map (·.content.length)).sum =
      (ms.map Member.payload).sum + (ms.map Member.controlLength).sum := by
  induction ms with
  | nil => rfl
  | cons m ms ih =>
      simp only [List.map_cons, List.sum_cons, ih, Member.payload, Member.controlLength]
      split <;> omega

theorem Readable.paths_nodup {ms : List Member} (h : Readable tables ms) :
    (ms.map Member.path).Nodup := by
  have := h.unique
  rw [show (ms.map fun m => pathIdentity tables m.path)
    = (ms.map Member.path).map (pathIdentity tables) by rw [List.map_map]; rfl] at this
  exact this.of_map

/-- What an archive may hold, the writer may write. -/
theorem Readable.content_le {ms : List Member} (h : Readable tables ms) :
    (ms.map (·.content.length)).sum ≤ maximumWritten := by
  have hcontrol := controlLength_sum_le h.paths_nodup fun m hm => (h.members m hm).size
  have hpayload := h.payload
  have hle : ∀ (p : Prop) [Decidable p] (n : Nat), (if p then n else 0) ≤ n := by
    intro p _ n
    split <;> omega
  have hmanifest := hle (js "manifest.json" ∈ ms.map Member.path) LocLimits.maximumManifestBytes
  have henvelope := hle (js "manifest.dsse.json" ∈ ms.map Member.path)
    LocLimits.maximumEnvelopeBytes
  rw [content_sum, maximumWritten]
  omega

/-- The members of a readable archive are in their order. -/
theorem membersOf_readable {ms : List Member} (h : Readable tables ms) :
    membersOf (ms.map Member.entry) = ms.map fun m => m.entry.member := by
  have hpair : (ms.map Member.entry).Pairwise
      fun left right => comparePath left.path right.path := by
    rw [List.pairwise_map]
    exact List.pairwise_map.mp h.ordered
  rw [membersOf, orderedEntries, hpair.insertionSort_eq, List.map_map]
  rfl

/-- The writer accepts what is reported of a readable archive without marks. -/
theorem writable_of_readable {ms : List Member} (h : Readable tables ms)
    (hplain : ∀ m ∈ ms, m.entry.member = m) : Writable tables (ms.map Member.entry) where
  members := List.forall_mem_map.mpr fun m hm => by
    have hok := h.members m hm
    have hname : m.centralName = textEncode m.path := congrArg Member.centralName (hplain m hm).symm
    have hcontent : m.entry.content = m.content := by
      simp [ArchiveEntry.content, Member.entry, sourceChunks]
    refine ⟨hok.portable, hok.mode, ?_, ⟨[m.content], rfl⟩, ?_, ?_⟩
    · rw [hcontent]; rfl
    · rw [hcontent]; exact hok.fits.content
    · rw [Member.entry, ← hname]; exact hok.centralLength
  nonempty := by simpa using h.nonempty
  count := by simpa using h.count
  content := by
    rw [List.map_map]
    have : (fun entry : ArchiveEntry => entry.content.length) ∘ Member.entry
        = fun m => m.content.length := by
      funext m
      simp [ArchiveEntry.content, Member.entry, sourceChunks]
    rw [this]
    exact h.content_le
  unique := by rw [List.map_map]; exact h.unique
  size := by
    rw [membersOf_readable h, List.map_congr_left hplain, List.map_id']
    exact h.size

theorem Writable.memberNames_eq {entries : List ArchiveEntry} (h : Writable tables entries) :
    memberNames (layout (membersOf entries)) =
      (membersOf entries).map fun m => (m.centralName, m.localName) := by
  refine memberNames_layout (List.forall_mem_map.mpr fun entry hentry => ?_)
    (by rw [membersOf_length]; exact h.count) h.size
  have hok := h.members entry (mem_orderedEntries.mp hentry)
  exact ⟨hok.nameLength, hok.nameLength, hok.contentLength⟩

theorem Readable.memberNames_eq {ms : List Member} (h : Readable tables ms) :
    memberNames (layout ms) = ms.map fun m => (m.centralName, m.localName) :=
  memberNames_layout (fun m hm => (h.members m hm).fits) h.count h.size

/-- A name is the encoded path exactly when it does not begin with a mark. -/
theorem textEncode_eq_iff {path : Text} {name : Bytes} (h : decodeFatal name = some path) :
    textEncode path = name ↔ hasBom name = false := by
  constructor
  · rintro rfl
    exact (decodeFatal_textEncode_iff.mp h).2
  · intro hbom
    rw [(textEncode_of_decodeFatal h).2, stripBom_of_not_hasBom hbom]

/-- The member that the writer makes of a reported entry differs in the names only. -/
theorem entry_member (m : Member) :
    m.entry.member = ⟨m.path, m.mode, m.content, textEncode m.path, textEncode m.path⟩ := by
  simp [ArchiveEntry.member, ArchiveEntry.content, Member.entry, sourceChunks]

/-- **Rewriting an accepted archive.**  The writer, applied to the entries
that the reader reports, gives the archive again exactly when no name in it
begins with a byte order mark. -/
theorem inspectLocArchive_rewrite_iff {file : Bytes} {bundle : LocBundle}
    (h : inspectLocArchive tables file = .ok bundle) :
    (∃ written, writeLocArchive tables (bundle.reportedEntries file) = .ok (file, written)) ↔
      ∀ names ∈ memberNames file, hasBom names.1 = false ∧ hasBom names.2 = false := by
  obtain ⟨ms, hms, rfl, rfl⟩ := inspectLocArchive_eq_ok_iff.mp h
  rw [reportedEntries_bundleOf, hms.memberNames_eq, List.forall_mem_map]
  constructor
  · rintro ⟨written, hwrite⟩ m hm
    obtain ⟨hw, hfile⟩ := writeLocArchive_eq_ok_iff.mp hwrite
    have hnames := congrArg memberNames (Prod.ext_iff.mp hfile).1
    rw [hms.memberNames_eq, hw.memberNames_eq, membersOf_readable hms, List.map_map] at hnames
    have hm' := Prod.ext_iff.mp (List.map_inj_left.mp hnames m hm)
    rw [Function.comp_apply, entry_member] at hm'
    exact ⟨(textEncode_eq_iff (hms.members m hm).central).mp hm'.1.symm,
      (textEncode_eq_iff (hms.members m hm).localName).mp hm'.2.symm⟩
  · intro hbom
    have hplain : ∀ m ∈ ms, m.entry.member = m := by
      intro m hm
      have hok := hms.members m hm
      have hcentral := (textEncode_eq_iff hok.central).mpr (hbom m hm).1
      have hlocal := (textEncode_eq_iff hok.localName).mpr (hbom m hm).2
      rw [entry_member]
      exact congrArg₂ (Member.mk m.path m.mode m.content) hcentral hlocal
    refine ⟨entriesFrom 0 (membersOf (ms.map Member.entry)),
      writeLocArchive_eq_ok_iff.mpr ⟨writable_of_readable hms hplain, ?_⟩⟩
    rw [membersOf_readable hms, List.map_congr_left hplain, List.map_id']

/-- An archive with the member `a`, whose central name begins with a mark. -/
def markedArchive : Bytes := layout [⟨js "a", js "0644", [], bom ++ [0x61], [0x61]⟩]

/-- The archive of the member `a`. -/
def plainArchive : Bytes := layout [⟨js "a", js "0644", [], [0x61], [0x61]⟩]

theorem inspectLocArchive_rewrite_plain : ∃ bundle written,
    inspectLocArchive asciiTables plainArchive = .ok bundle ∧
      writeLocArchive asciiTables (bundle.reportedEntries plainArchive) =
        .ok (plainArchive, written) := by
  have h : (inspectLocArchive asciiTables plainArchive).isOk = true := by decide +kernel
  cases hb : inspectLocArchive asciiTables plainArchive with
  | error e => rw [hb] at h; cases h
  | ok bundle =>
      obtain ⟨written, hw⟩ := (inspectLocArchive_rewrite_iff hb).mpr (by decide +kernel)
      exact ⟨bundle, written, rfl, hw⟩

/-- The marked archive is accepted, and rewritten to other octets. -/
theorem inspectLocArchive_marked : ∃ bundle r,
    inspectLocArchive asciiTables markedArchive = .ok bundle ∧
      writeLocArchive asciiTables (bundle.reportedEntries markedArchive) = .ok r ∧
      r.1 ≠ markedArchive := by
  have h : (inspectLocArchive asciiTables markedArchive >>= fun bundle =>
      writeLocArchive asciiTables (bundle.reportedEntries markedArchive) >>= fun r =>
        .ok (decide (r.1 = markedArchive))).toOption = some false := by decide +kernel
  cases hb : inspectLocArchive asciiTables markedArchive with
  | error e => rw [hb] at h; cases h
  | ok bundle =>
      rw [hb] at h
      cases hr : writeLocArchive asciiTables (bundle.reportedEntries markedArchive) with
      | error e => simp only [bind, Except.bind, hr] at h; cases h
      | ok r =>
          simp only [bind, Except.bind, hr] at h
          exact ⟨bundle, r, rfl, hr, of_decide_eq_false (Option.some.inj h)⟩

/-! ## From the writer to the reader -/

/-- What a summary reports of its member, in comparable form. -/
def Summary.report (s : Summary) : Text × Text × Nat × Nat × Text :=
  (s.entry.path, s.entry.mode, s.entry.sizeBytes, s.entry.crc32, s.sha256)

/-- What the reader should report of an entry that was written. -/
def ArchiveEntry.report (entry : ArchiveEntry) : Text × Text × Nat × Nat × Text :=
  (entry.path, entry.mode, entry.content.length, (crc32 entry.content).toNat,
    js "sha256:" ++ sha256Hex entry.content)

theorem summariesFrom_report (entries : List ArchiveEntry) (offset : Nat) :
    (summariesFrom offset (entries.map ArchiveEntry.member)).map Summary.report =
      entries.map ArchiveEntry.report := by
  induction entries generalizing offset with
  | nil => rfl
  | cons entry entries ih => rw [List.map_cons, summariesFrom, List.map_cons, ih]; rfl

/-- A member of an archive is found by its path, and its octets are read. -/
theorem read_of_slice {file : Bytes} : ∀ {ms : List Member} {offset : Nat},
    (ms.map Member.path).Nodup → slice file offset (locals ms).length = locals ms →
    ∀ m ∈ ms, ∃ summary, (summariesFrom offset ms).find? (fun s => s.entry.path = m.path)
      = some summary ∧ summary.entry.sizeBytes = m.content.length ∧
        slice file summary.dataOffset m.content.length = m.content
  | [], _, _, _ => by simp
  | n :: ms, offset, hnodup, h => by
      rw [locals_cons, List.length_append] at h
      obtain ⟨hn, hms⟩ := slice_eq_append_iff.mp h
      rw [List.map_cons, List.nodup_cons] at hnodup
      intro m hm
      rw [summariesFrom]
      rcases List.mem_cons.mp hm with rfl | hm
      · exact ⟨m.summary offset, List.find?_cons_of_pos (by simp [Member.summary, Member.written]),
          rfl, content_slice hn⟩
      · obtain ⟨summary, hfind, hsize, hslice⟩ := read_of_slice hnodup.2 hms m hm
        have hne : n.path ≠ m.path := fun he => hnodup.1 (he ▸ List.mem_map_of_mem hm)
        refine ⟨summary, ?_, hsize, hslice⟩
        rw [List.find?_cons_of_neg, hfind]
        rw [decide_eq_true_eq]
        exact hne

/-- **Reading a member** gives its content when the limit admits it. -/
theorem read_bundleOf {ms : List Member} (h : (ms.map Member.path).Nodup) {m : Member} (hm : m ∈ ms)
    (limit : Nat) :
    (bundleOf ms).read (layout ms) m.path limit = .ok m.content ↔ m.content.length ≤ limit := by
  obtain ⟨summary, hfind, hsize, hslice⟩ := read_of_slice h (locals_slice ms) m hm
  rw [LocBundle.read, bundleOf, hfind]
  simp only [bind_eq_ok_iff, failIf_eq_ok_iff, readExact_eq_ok_iff, exists_const, hsize, hslice,
    and_self, and_true, not_lt, gt_iff_lt]

/-- A read returns no more than its limit. -/
theorem length_le_of_read {bundle : LocBundle} {file bytes : Bytes} {path : Text} {limit : Nat}
    (h : bundle.read file path limit = .ok bytes) : bytes.length ≤ limit := by
  unfold LocBundle.read at h
  split at h
  · cases h
  · simp only [bind_eq_ok_iff, failIf_eq_ok_iff, readExact_eq_ok_iff, exists_const, not_lt,
      gt_iff_lt] at h
    omega

/-- What is written can be read when every name decodes to its path. -/
theorem readable_of_writable {entries : List ArchiveEntry} (h : Writable tables entries)
    (hmember : ∀ entry ∈ entries, entry.content.length ≤ memberLimit entry.path)
    (htotal : (entries.map (·.member.payload)).sum ≤ LocLimits.maximumContentBytes)
    (hname : ∀ entry ∈ entries, decodeFatal (textEncode entry.path) = some entry.path) :
    Readable tables (membersOf entries) where
  members := List.forall_mem_map.mpr fun entry hentry => by
    have hmem := mem_orderedEntries.mp hentry
    have hok := h.members entry hmem
    exact ⟨hname entry hmem, hname entry hmem, hok.portable, hok.mode, hmember entry hmem,
      hok.nameLength, hok.nameLength⟩
  nonempty := by
    rw [← List.length_pos_iff, membersOf_length]
    exact List.length_pos_iff.mpr h.nonempty
  count := by rw [membersOf_length]; exact h.count
  payload := by
    rw [membersOf, List.map_map, ((orderedEntries_perm entries).map _).sum_eq]
    exact htotal
  unique := by
    rw [membersOf, List.map_map]
    exact ((orderedEntries_perm entries).map _).nodup_iff.mpr h.unique
  ordered := by
    rw [membersOf, List.map_map, List.pairwise_map]
    exact pairwise_sortByPath ArchiveEntry.path entries
  size := h.size

/-- **Reading what was written.**  Of entries within the ceilings of the
reader, the reader reports what was written, and reads every member back,
exactly when every path is well formed and does not begin with U+FEFF, and
no member is longer than the limit of the read. -/
theorem writeLocArchive_inspect_iff {entries : List ArchiveEntry} {file : Bytes}
    {written : List Written} {limit : Nat}
    (h : writeLocArchive tables entries = .ok (file, written))
    (hmember : ∀ entry ∈ entries, entry.content.length ≤ memberLimit entry.path)
    (htotal : (entries.map (·.member.payload)).sum ≤ LocLimits.maximumContentBytes) :
    (∃ bundle, inspectLocArchive tables file = .ok bundle ∧
        bundle.entries.map Summary.report = (orderedEntries entries).map ArchiveEntry.report ∧
        ∀ entry ∈ entries, bundle.read file entry.path limit = .ok entry.content) ↔
      ∀ entry ∈ entries, WellFormed entry.path ∧ entry.path.head? ≠ some byteOrderMark ∧
        entry.content.length ≤ limit := by
  obtain ⟨hw, hr⟩ := writeLocArchive_eq_ok_iff.mp h
  obtain ⟨rfl, rfl⟩ := Prod.ext_iff.mp hr
  dsimp only
  have hname : ∀ path : Text, decodeFatal (textEncode path) = some path ↔
      WellFormed path ∧ path.head? ≠ some byteOrderMark := by
    intro path
    rw [decodeFatal_textEncode_iff, ← Bool.not_eq_true, hasBom_textEncode_iff,
      ne_eq, List.head?_eq_some_iff]
  constructor
  · rintro ⟨bundle, hbundle, hreport, hread⟩ entry hentry
    obtain ⟨ms, hms, hfile, rfl⟩ := inspectLocArchive_eq_ok_iff.mp hbundle
    have hnames := congrArg memberNames hfile
    rw [hw.memberNames_eq, hms.memberNames_eq] at hnames
    have hpaths : ms.map Member.path = (orderedEntries entries).map ArchiveEntry.path := by
      have := congrArg (List.map Prod.fst) hreport
      rw [List.map_map, List.map_map] at this
      rw [← entriesFrom_paths 0 ms, ← summariesFrom_entries, List.map_map]
      exact this
    -- what the archive's names decode to, read off both lists of members
    have hdecode : (orderedEntries entries).map (fun e => decodeFatal (textEncode e.path)) =
        (orderedEntries entries).map fun e => some e.path := by
      calc (orderedEntries entries).map (fun e => decodeFatal (textEncode e.path))
          = ((membersOf entries).map fun m => (m.centralName, m.localName)).map
              (fun names => decodeFatal names.1) := by rw [membersOf, List.map_map, List.map_map]; rfl
        _ = ms.map (fun m => decodeFatal m.centralName) := by rw [hnames, List.map_map]; rfl
        _ = ms.map (fun m => some m.path) :=
            List.map_congr_left fun m hm => (hms.members m hm).central
        _ = (ms.map Member.path).map some := by rw [List.map_map]; rfl
        _ = (orderedEntries entries).map fun e => some e.path := by rw [hpaths, List.map_map]; rfl
    obtain ⟨hwell, hmark⟩ := (hname _).mp
      (List.map_inj_left.mp hdecode entry (mem_orderedEntries.mpr hentry))
    exact ⟨hwell, hmark, length_le_of_read (hread entry hentry)⟩
  · intro hpaths
    have hms := readable_of_writable hw hmember htotal fun entry hentry =>
      (hname _).mpr ⟨(hpaths entry hentry).1, (hpaths entry hentry).2.1⟩
    refine ⟨bundleOf (membersOf entries), inspectLocArchive_eq_ok_iff.mpr ⟨_, hms, rfl, rfl⟩,
      summariesFrom_report _ 0, fun entry hentry => ?_⟩
    exact (read_bundleOf hms.paths_nodup (List.mem_map_of_mem (mem_orderedEntries.mpr hentry))
      limit).mpr (hpaths entry hentry).2.2

/-- An entry with the given path and no content. -/
def emptyEntry (path : Text) : ArchiveEntry := ⟨path, js "0644", .bytes []⟩

theorem writeLocArchive_inspect_plain : ∃ file written,
    writeLocArchive asciiTables [emptyEntry (js "a")] = .ok (file, written) ∧
      ∃ bundle, inspectLocArchive asciiTables file = .ok bundle ∧
        bundle.entries.map Summary.report =
          (orderedEntries [emptyEntry (js "a")]).map ArchiveEntry.report ∧
        ∀ entry ∈ [emptyEntry (js "a")],
          bundle.read file entry.path defaultReadLimit = .ok entry.content := by
  have h : (writeLocArchive asciiTables [emptyEntry (js "a")]).isOk = true := by decide +kernel
  cases hr : writeLocArchive asciiTables [emptyEntry (js "a")] with
  | error e => rw [hr] at h; cases h
  | ok r =>
      exact ⟨r.1, r.2, rfl, (writeLocArchive_inspect_iff hr (by decide) (by decide)).mpr (by decide)⟩

/-- The path U+FEFF `a` is written and accepted, and it is reported as `a`. -/
theorem writeLocArchive_marked : ∃ r bundle,
    writeLocArchive asciiTables [emptyEntry (byteOrderMark :: js "a")] = .ok r ∧
      inspectLocArchive asciiTables r.1 = .ok bundle ∧
      bundle.entries.map (·.entry.path) = [js "a"] ∧
      bundle.entries.map Summary.report ≠
        (orderedEntries [emptyEntry (byteOrderMark :: js "a")]).map ArchiveEntry.report := by
  have h : (writeLocArchive asciiTables [emptyEntry (byteOrderMark :: js "a")] >>= fun r =>
      inspectLocArchive asciiTables r.1 >>= fun bundle =>
        .ok (bundle.entries.map (·.entry.path))).toOption = some [js "a"] := by decide +kernel
  cases hr : writeLocArchive asciiTables [emptyEntry (byteOrderMark :: js "a")] with
  | error e => rw [hr] at h; cases h
  | ok r =>
      cases hb : inspectLocArchive asciiTables r.1 with
      | error e => simp only [bind, Except.bind, hr, hb] at h; cases h
      | ok bundle =>
          simp only [bind, Except.bind, hr, hb] at h
          have hpaths : bundle.entries.map (·.entry.path) = [js "a"] := Option.some.inj h
          refine ⟨r, bundle, rfl, hb, hpaths, fun he => ?_⟩
          have := congrArg (List.map Prod.fst) he
          rw [List.map_map] at this
          exact absurd (hpaths.symm.trans this) (by decide)

/-- **An archive is one of a set of entries**: with well-formed paths, their order is not
seen.  The octets of other paths can be the same for two of them. -/
theorem writeLocArchive_perm {entries entries' : List ArchiveEntry} (hperm : entries.Perm entries')
    (hformed : ∀ entry ∈ entries, WellFormed entry.path) {r : Bytes × List Written}
    (h : writeLocArchive tables entries = .ok r) : writeLocArchive tables entries' = .ok r := by
  obtain ⟨hw, rfl⟩ := writeLocArchive_eq_ok_iff.mp h
  have hsorted : orderedEntries entries' = orderedEntries entries := by
    refine List.Perm.eq_of_pairwise (fun a b ha hb hab hba => ?_) (pairwise_sortByPath _ entries')
      (pairwise_sortByPath _ entries)
      (((orderedEntries_perm entries').trans hperm.symm).trans (orderedEntries_perm entries).symm)
    have ha' : a ∈ entries := hperm.mem_iff.mpr (mem_orderedEntries.mp ha)
    have hb' : b ∈ entries := mem_orderedEntries.mp hb
    have hbytes : textEncode a.path = textEncode b.path :=
      List.map_injective_iff.mpr (fun _ _ => UInt8.toUInt16_inj.mp) (leUnits_antisymm hab hba)
    exact List.inj_on_of_nodup_map hw.unique ha' hb'
      (congrArg (pathIdentity tables) ((textEncode_inj (hformed a ha') (hformed b hb')).mp hbytes))
  have hmembers : membersOf entries' = membersOf entries := congrArg (List.map ArchiveEntry.member) hsorted
  rw [← hmembers]
  exact writeLocArchive_eq_ok_iff.mpr ⟨{
    members := fun entry hentry => hw.members entry (hperm.mem_iff.mpr hentry)
    nonempty := fun hnil => hw.nonempty (hperm.trans (hnil ▸ .refl _)).eq_nil
    count := hperm.length_eq ▸ hw.count
    content := (hperm.map (·.content.length)).sum_eq ▸ hw.content
    unique := (hperm.map _).nodup_iff.mp hw.unique
    size := hmembers ▸ hw.size }, rfl⟩

theorem writeLocArchive_perm_two : ∃ r,
    writeLocArchive asciiTables [emptyEntry (js "a"), emptyEntry (js "b")] = .ok r ∧
      writeLocArchive asciiTables [emptyEntry (js "b"), emptyEntry (js "a")] = .ok r := by
  have h : (writeLocArchive asciiTables [emptyEntry (js "a"), emptyEntry (js "b")]).isOk = true := by
    decide +kernel
  cases hr : writeLocArchive asciiTables [emptyEntry (js "a"), emptyEntry (js "b")] with
  | error e => rw [hr] at h; cases h
  | ok r => exact ⟨r, rfl, writeLocArchive_perm (.swap ..) (by decide) hr⟩

end LocalMode

end SingularityFlow
