/-
# What the reader accepts

`inspectLocArchive_eq_ok_iff`: the archives that are accepted are the layouts
of lists of members that are `Readable`, and the bundle that is returned
describes exactly these members.  No other octet of an archive is free: the
forty fields of the headers, the offsets and the two copies of a name are
functions of the members.

A name is free in one respect.  Each of its two copies decodes to the path of
the member, and `TextDecoder` drops a byte order mark.
-/
import SingularityFlow.LocalMode.ArchiveLayout

namespace SingularityFlow

open Ecma

namespace LocalMode

/-! ## The order of the paths -/

instance : Std.Total comparePath := ⟨fun _ _ => leUnits_total _ _⟩

instance : IsTrans Text comparePath := ⟨fun _ _ _ => leUnits_trans⟩

section Sorting

variable {α : Type} (path : α → Text)

theorem pairwise_sortByPath (l : List α) :
    (l.insertionSort fun a b => comparePath (path a) (path b)).Pairwise
      fun a b => comparePath (path a) (path b) :=
  haveI : Std.Total fun a b : α => comparePath (path a) (path b) :=
    ⟨fun _ _ => leUnits_total _ _⟩
  haveI : IsTrans α fun a b => comparePath (path a) (path b) := ⟨fun _ _ _ => leUnits_trans⟩
  List.pairwise_insertionSort _ l

theorem map_sortByPath (l : List α) :
    (l.insertionSort fun a b => comparePath (path a) (path b)).map path =
      (l.map path).insertionSort comparePath :=
  List.map_insertionSort _ _ path l fun _ _ _ _ => Iff.rfl

/-- A list is in the order of its paths when sorting it changes no path. -/
theorem map_eq_map_sortByPath_iff (l : List α) :
    l.map path = (l.insertionSort fun a b => comparePath (path a) (path b)).map path ↔
      (l.map path).Pairwise comparePath := by
  rw [map_sortByPath]
  constructor
  · intro h
    rw [h]
    exact List.pairwise_insertionSort _ _
  · intro h
    rw [h.insertionSort_eq]

end Sorting

/-! ## Readable members -/

variable {tables : UnicodeTables}

/-- A member as both of its headers show it. -/
structure MemberOk (tables : UnicodeTables) (m : Member) : Prop where
  central : decodeFatal m.centralName = some m.path
  localName : decodeFatal m.localName = some m.path
  portable : Portable tables m.path
  mode : m.mode = js "0644" ∨ m.mode = js "0755"
  size : m.content.length ≤ memberLimit m.path
  centralLength : m.centralName.length < 2 ^ 16
  localLength : m.localName.length < 2 ^ 16

/-- What a member adds to the content of its archive. -/
def Member.payload (m : Member) : Nat := if isControl m.path then 0 else m.content.length

/-- Members that make up an archive. -/
structure Readable (tables : UnicodeTables) (ms : List Member) : Prop where
  members : ∀ m ∈ ms, MemberOk tables m
  nonempty : ms ≠ []
  count : ms.length ≤ LocLimits.maximumFiles + 2
  payload : (ms.map Member.payload).sum ≤ LocLimits.maximumContentBytes
  unique : (ms.map fun m => pathIdentity tables m.path).Nodup
  ordered : (ms.map Member.path).Pairwise comparePath
  size : (layout ms).length ≤ LocLimits.maximumArchiveBytes

theorem MemberOk.centralName_ne_nil {m : Member} (h : MemberOk tables m) : m.centralName ≠ [] := by
  intro hnil
  have := h.central
  rw [hnil] at this
  exact h.portable.ne_nil (Option.some.inj this).symm

theorem MemberOk.localOk {m : Member} (h : MemberOk tables m) : LocalOk m :=
  ⟨h.localName, h.localLength, h.size.trans_lt (memberLimit_lt _)⟩

theorem MemberOk.centralOk {m : Member} (h : MemberOk tables m) {offset : Nat}
    (ho : offset < 2 ^ 32) : CentralOk tables (m.written offset, m.centralName) where
  decoded := h.central
  portable := h.portable
  mode := h.mode
  size := h.size
  name := ⟨List.length_pos_iff.mpr h.centralName_ne_nil, h.centralLength⟩
  crc32 := (crc32 m.content).toNat_lt
  localOffset := ho

/-- The parts of `Readable` that stem from the two loops, read off the entries. -/
theorem memberOk_of_entries : ∀ {ms : List Member} {offset : Nat},
    (∀ p ∈ (entriesFrom offset ms).zip (ms.map Member.centralName), CentralOk tables p) →
    (∀ m ∈ ms, LocalOk m) → ∀ m ∈ ms, MemberOk tables m
  | [], _, _, _ => by simp
  | m :: ms, offset, hcentral, hlocal => by
      rw [entriesFrom, List.map_cons, List.zip_cons_cons] at hcentral
      obtain ⟨hc, hcs⟩ := List.forall_mem_cons.mp hcentral
      obtain ⟨hl, hls⟩ := List.forall_mem_cons.mp hlocal
      exact List.forall_mem_cons.mpr
        ⟨⟨hc.decoded, hl.decoded, hc.portable, hc.mode, hc.size, hc.name.2, hl.name⟩,
          memberOk_of_entries hcs hls⟩

/-- Every entry lies, with its local header, before the end of the members. -/
theorem localOffset_lt : ∀ {ms : List Member} {offset : Nat},
    ∀ e ∈ entriesFrom offset ms, e.localOffset + 30 ≤ offset + (locals ms).length
  | [], _ => by simp [entriesFrom]
  | m :: ms, offset => by
      rw [entriesFrom, locals_cons, List.length_append]
      have hlen := localBytes_length m
      refine List.forall_mem_cons.mpr ⟨?_, fun e he => ?_⟩
      · simp only [Member.written]
        omega
      · have := localOffset_lt e he
        omega

theorem centralOk_of_members : ∀ {ms : List Member} {offset : Nat},
    (∀ m ∈ ms, MemberOk tables m) → offset + (locals ms).length < 2 ^ 32 →
    ∀ p ∈ (entriesFrom offset ms).zip (ms.map Member.centralName), CentralOk tables p
  | [], _, _, _ => by simp [entriesFrom]
  | m :: ms, offset, h, hlt => by
      obtain ⟨hm, hms⟩ := List.forall_mem_cons.mp h
      rw [locals_cons, List.length_append] at hlt
      rw [entriesFrom, List.map_cons, List.zip_cons_cons]
      exact List.forall_mem_cons.mpr ⟨hm.centralOk (by omega), centralOk_of_members hms (by omega)⟩

theorem payload_entries (offset : Nat) (ms : List Member) :
    ((entriesFrom offset ms).zip (ms.map Member.centralName)).map (fun p => LocalMode.payload p.1) =
      ms.map Member.payload := by
  induction ms generalizing offset with
  | nil => rfl
  | cons m ms ih => rw [entriesFrom, List.map_cons, List.zip_cons_cons, List.map_cons, ih]; rfl

theorem map_fst_entries (offset : Nat) (ms : List Member) :
    ((entriesFrom offset ms).zip (ms.map Member.centralName)).map Prod.fst =
      entriesFrom offset ms :=
  List.map_fst_zip (by rw [entriesFrom_length, List.length_map])

/-! ## The end record -/

/-- The end record, field by field. -/
theorem eq_endRecord_iff {last : Bytes} {n s o : Nat} (hlen : last.length = 22)
    (hfit : ∀ f ∈ endFields n s o, f.2 < 256 ^ f.1) :
    last = record (endFields n s o) ↔
      readUInt32LE last 0 = endSignature ∧ readUInt16LE last 4 = 0 ∧ readUInt16LE last 6 = 0 ∧
        readUInt16LE last 8 = n ∧ readUInt16LE last 10 = n ∧ readUInt32LE last 12 = s ∧
        readUInt32LE last 16 = o ∧ readUInt16LE last 20 = 0 := by
  rw [eq_record_iff (by rw [hlen, endFields_sum]) hfit]
  simp only [endFields, List.map_cons, List.map_nil, reads, List.cons.injEq, Nat.reduceAdd,
    readUInt32LE, readUInt16LE, and_true]

theorem endFields_fit {n s o : Nat} (hn : n < 2 ^ 16) (hs : s < 2 ^ 32) (ho : o < 2 ^ 32) :
    ∀ f ∈ endFields n s o, f.2 < 256 ^ f.1 := by
  simp only [endFields, List.forall_mem_cons, endSignature]
  norm_num
  exact ⟨hn, hs, ho⟩

/-- A file is its members, its directory and its last octets, read each in its place. -/
theorem eq_append_iff_slices {file a b c : Bytes} :
    file = a ++ (b ++ c) ↔ file.length = a.length + b.length + c.length ∧
      slice file 0 a.length = a ∧ slice file a.length b.length = b ∧
      slice file (a.length + b.length) c.length = c := by
  constructor
  · rintro rfl
    refine ⟨by simp [Nat.add_assoc], ?_, slice_append a b c rfl rfl, ?_⟩
    · simp [slice]
    · have := slice_append (a ++ b) c [] rfl rfl
      simpa using this
  · rintro ⟨hlen, ha, hb, hc⟩
    have hwhole : slice file 0 (a.length + (b.length + c.length)) = file := by
      rw [slice, List.drop_zero, ← Nat.add_assoc, ← hlen, List.take_length]
    rw [slice_add, slice_add, ha, Nat.zero_add, hb, hc] at hwhole
    exact hwhole.symm

/-! ## The archives that are accepted -/

theorem directory_length_lt {ms : List Member}
    (h : (layout ms).length ≤ LocLimits.maximumArchiveBytes) :
    (locals ms).length < 2 ^ 32 ∧ (directory 0 ms).length < 2 ^ 32 := by
  rw [layout_length, LocLimits.maximumArchiveBytes] at h
  omega

/-- The bundle of members. -/
def bundleOf (ms : List Member) : LocBundle :=
  ⟨(layout ms).length, js "sha256:" ++ sha256Hex (layout ms), summariesFrom 0 ms⟩

theorem count_pos {ms : List Member} : ms.length = 0 ↔ ms = [] := List.length_eq_zero_iff

/-- **The reader accepts the layouts of readable members, and reports them.** -/
theorem inspectLocArchive_eq_ok_iff {file : Bytes} {bundle : LocBundle} :
    inspectLocArchive tables file = .ok bundle ↔
      ∃ ms, Readable tables ms ∧ file = layout ms ∧ bundle = bundleOf ms := by
  constructor
  · intro h
    simp only [inspectLocArchive, bind_eq_ok_iff, failIf_eq_ok_iff, readExact_eq_ok_iff,
      readCentral_eq_ok_iff (Nat.zero_le _), assertUniquePortablePaths_eq_ok_iff, not_or, ne_eq,
      not_not, not_lt, Except.ok.injEq, exists_const, gt_iff_lt, Nat.zero_add] at h
    obtain ⟨⟨hmin, hmax⟩, last, ⟨hlast, hlen⟩, ⟨h0, h4, h6, h8, h20⟩, ⟨hcount, hcount', hplace⟩,
      _, ⟨ps, hps, hcentral, hdirectory, hsum, rfl⟩, hend, ⟨-, hunique⟩, hsorted, _, hlocals,
      hstart, rfl⟩ := h
    obtain ⟨ms, rfl, -, hlocalOk, hmembers, rfl⟩ := readLocals_eq_ok_iff.mp hlocals
    rw [map_fst_entries] at hunique hsorted
    rw [map_eq_map_sortByPath_iff, entriesFrom_paths] at hsorted
    rw [payload_entries] at hsum
    rw [List.length_zip, entriesFrom_length, List.length_map, Nat.min_self] at hps
    dsimp only at hend hstart
    have hfile : file = layout ms := by
      have hd : (directory 0 ms).length = readUInt32LE last 12 := by
        rw [directory]; omega
      refine eq_append_iff_slices.mpr ⟨?_, hmembers, ?_, ?_⟩
      · rw [record_length, endFields_sum]; omega
      · rw [directory, show (locals ms).length = readUInt32LE last 16 by omega]
        exact hdirectory
      · rw [record_length, endFields_sum, show (locals ms).length + (directory 0 ms).length
          = file.length - 22 by omega, hlast]
        refine (eq_endRecord_iff hlen (endFields_fit ?_ ?_ ?_)).mpr ⟨h0, h4, h6, ?_, ?_, ?_, ?_, h20⟩
        · rw [hps]; exact readField_lt
        · rw [hd]; exact readField_lt
        · rw [show (locals ms).length = readUInt32LE last 16 by omega]; exact readField_lt
        · omega
        · omega
        · exact hd.symm
        · omega
    refine ⟨ms, ⟨memberOk_of_entries hcentral hlocalOk, ?_, by omega, hsum, ?_, hsorted, ?_⟩,
      hfile, ?_⟩
    · rintro rfl
      exact hcount (by simpa using hps.symm)
    · rw [entriesFrom_paths, List.map_map] at hunique
      exact hunique
    · rw [← hfile]; exact hmax
    · rw [hfile]; rfl
  · rintro ⟨ms, h, rfl, rfl⟩
    obtain ⟨hlocals, hdirectory⟩ := directory_length_lt h.size
    obtain ⟨hlen, hslice, hslice', hlast⟩ := eq_append_iff_slices.mp (layout.eq_1 ms)
    rw [record_length, endFields_sum] at hlen hlast
    have hoff : (layout ms).length - 22 = (locals ms).length + (directory 0 ms).length := by omega
    have hlen' : (slice (layout ms) ((layout ms).length - 22) 22).length = 22 := by
      rw [hoff, hlast, record_length, endFields_sum]
    obtain ⟨h0, h4, h6, h8, h10, h12, h16, h20⟩ :=
      (eq_endRecord_iff hlen' (endFields_fit (h.count.trans_lt (by decide)) hdirectory hlocals)).mp
        (hoff ▸ hlast)
    have hentries := map_fst_entries 0 ms
    simp only [inspectLocArchive, bind_eq_ok_iff, failIf_eq_ok_iff, readExact_eq_ok_iff,
      readCentral_eq_ok_iff (Nat.zero_le _), assertUniquePortablePaths_eq_ok_iff, not_or, ne_eq,
      not_not, not_lt, Except.ok.injEq, exists_const, gt_iff_lt, Nat.zero_add]
    refine ⟨⟨by omega, h.size⟩, _, ⟨rfl, hlen'⟩, ⟨h0, h4, h6, h8.trans h10.symm, h20⟩, ?_⟩
    rw [h10, h12, h16]
    refine ⟨⟨count_pos.not.mpr h.nonempty, h.count, hoff.symm⟩, _,
      ⟨(entriesFrom 0 ms).zip (ms.map Member.centralName), ?_, ?_, hslice', ?_, rfl⟩, rfl,
      ⟨?_, ?_⟩, ?_, _, readLocals_eq_ok_iff.mpr ⟨ms, rfl, ?_, ?_, hslice, rfl⟩, Nat.zero_add _, rfl⟩
    · rw [List.length_zip, entriesFrom_length, List.length_map, Nat.min_self]
    · exact centralOk_of_members h.members (by omega)
    · rw [payload_entries]; exact h.payload
    · rw [hentries, entriesFrom_paths]
      exact List.forall_mem_map.mpr fun m hm => (h.members m hm).portable
    · rw [hentries, entriesFrom_paths, List.map_map]; exact h.unique
    · rw [hentries, map_eq_map_sortByPath_iff, entriesFrom_paths]; exact h.ordered
    · intro e he
      have := localOffset_lt e he
      omega
    · exact fun m hm => (h.members m hm).localOk

/-! ## The names in an archive -/

/-- The two copies of the name of each member, as they stand in the archive;
`cursor` is at a central header. -/
def memberNamesFrom (file : Bytes) : Nat → Nat → List (Bytes × Bytes)
  | 0, _ => []
  | count + 1, cursor =>
      let nameLength := readUInt16LE file (cursor + 28)
      let localOffset := readUInt32LE file (cursor + 42)
      (slice file (cursor + 46) nameLength,
          slice file (localOffset + 30) (readUInt16LE file (localOffset + 26))) ::
        memberNamesFrom file count (cursor + 46 + nameLength)

/-- The names in an archive, found from its end record. -/
def memberNames (file : Bytes) : List (Bytes × Bytes) :=
  memberNamesFrom file (readUInt16LE file (file.length - 22 + 10))
    (readUInt32LE file (file.length - 22 + 16))

/-- Lengths that the fields of the headers can hold. -/
structure Member.Fits (m : Member) : Prop where
  centralName : m.centralName.length < 2 ^ 16
  localName : m.localName.length < 2 ^ 16
  content : m.content.length < 2 ^ 32

theorem MemberOk.fits {m : Member} (h : MemberOk tables m) : m.Fits :=
  ⟨h.centralLength, h.localLength, h.size.trans_lt (memberLimit_lt _)⟩

theorem central_reads {file : Bytes} {cursor : Nat} {p : Written × Bytes}
    (hfit : ∀ f ∈ centralFields p.2.length p.1, f.2 < 256 ^ f.1)
    (h : slice file cursor (centralBytes p).length = centralBytes p) :
    readUInt16LE file (cursor + 28) = p.2.length ∧
      readUInt32LE file (cursor + 42) = p.1.localOffset ∧
      slice file (cursor + 46) p.2.length = p.2 := by
  have hlen : (record (centralFields p.2.length p.1)).length = 46 := by
    rw [record_length, centralFields_sum]
  rw [centralBytes, List.length_append] at h
  obtain ⟨hfixed, hname⟩ := slice_eq_append_iff.mp h
  rw [hlen] at hfixed hname
  obtain ⟨-, -, -, -, -, -, -, -, -, -, h28, -, -, -, -, -, h42⟩ :=
    (eq_centralHeader_iff (by rw [hfixed, hlen]) hfit).mp hfixed
  rw [readUInt16LE, readField_slice (by decide)] at h28
  rw [readUInt32LE, readField_slice (by decide)] at h42
  exact ⟨h28, h42, hname⟩

theorem local_reads {file : Bytes} {offset : Nat} {m : Member} (hm : m.Fits)
    (h : slice file offset m.localBytes.length = m.localBytes) :
    readUInt16LE file (offset + 26) = m.localName.length ∧
      slice file (offset + 30) m.localName.length = m.localName := by
  have hlen : (record (localFields m.localName.length m.content.length
      (crc32 m.content).toNat)).length = 30 := by rw [record_length, localFields_sum]
  rw [Member.localBytes, List.length_append] at h
  obtain ⟨hfixed, hrest⟩ := slice_eq_append_iff.mp h
  rw [List.length_append] at hrest
  obtain ⟨hname, -⟩ := slice_eq_append_iff.mp hrest
  rw [hlen] at hfixed hname
  obtain ⟨-, -, -, -, -, -, -, -, -, h26, -⟩ := (eq_localHeader_iff (by rw [hfixed, hlen])
    (localFields_fit m.content hm.localName hm.content)).mp hfixed
  rw [readUInt16LE, readField_slice (by decide)] at h26
  exact ⟨h26, hname⟩

theorem memberNamesFrom_eq {file : Bytes} : ∀ {ms : List Member} {offset cursor : Nat},
    (∀ m ∈ ms, m.Fits) → offset + (locals ms).length < 2 ^ 32 →
    slice file offset (locals ms).length = locals ms →
    slice file cursor (directory offset ms).length = directory offset ms →
    memberNamesFrom file ms.length cursor = ms.map fun m => (m.centralName, m.localName)
  | [], _, _, _, _, _, _ => rfl
  | m :: ms, offset, cursor, hfits, hlt, hlocals, hdirectory => by
      obtain ⟨hm, hms⟩ := List.forall_mem_cons.mp hfits
      have hd : directory offset (m :: ms) = centralBytes (m.written offset, m.centralName)
          ++ directory (offset + m.localBytes.length) ms := by
        rw [directory, entriesFrom, List.map_cons, List.zip_cons_cons, centrals_cons]
        rfl
      rw [locals_cons, List.length_append] at hlocals hlt
      rw [hd, List.length_append] at hdirectory
      obtain ⟨hlocal, hlocals⟩ := slice_eq_append_iff.mp hlocals
      obtain ⟨hcentral, hdirectory⟩ := slice_eq_append_iff.mp hdirectory
      have hfit := centralFields_fit (e := m.written offset) hm.centralName hm.content
        (crc32 m.content).toNat_lt (show offset < 2 ^ 32 by omega)
      obtain ⟨h28, h42, hname⟩ := central_reads hfit hcentral
      rw [centralBytes_length, ← Nat.add_assoc] at hdirectory
      dsimp only [Member.written] at h28 h42 hname hdirectory
      obtain ⟨h26, hname'⟩ := local_reads hm hlocal
      rw [List.length_cons, memberNamesFrom, h28, h42, h26, hname, hname',
        memberNamesFrom_eq hms (by omega) hlocals hdirectory, List.map_cons]

/-- **The names in the archive of members are their names.** -/
theorem memberNames_layout {ms : List Member} (hfits : ∀ m ∈ ms, m.Fits)
    (hcount : ms.length ≤ LocLimits.maximumFiles + 2)
    (hsize : (layout ms).length ≤ LocLimits.maximumArchiveBytes) :
    memberNames (layout ms) = ms.map fun m => (m.centralName, m.localName) := by
  obtain ⟨hlocals, hdirectory⟩ := directory_length_lt hsize
  obtain ⟨hlen, hslice, hslice', hlast⟩ := eq_append_iff_slices.mp (layout.eq_1 ms)
  rw [record_length, endFields_sum] at hlen hlast
  have hoff : (layout ms).length - 22 = (locals ms).length + (directory 0 ms).length := by omega
  rw [← hoff] at hlast
  obtain ⟨-, -, -, -, h10, -, h16, -⟩ := (eq_endRecord_iff
    (by rw [hlast, record_length, endFields_sum])
    (endFields_fit (hcount.trans_lt (by decide)) hdirectory hlocals)).mp hlast
  rw [readUInt16LE, readField_slice (by decide)] at h10
  rw [readUInt32LE, readField_slice (by decide)] at h16
  rw [memberNames, readUInt16LE, h10, readUInt32LE, h16]
  exact memberNamesFrom_eq hfits (by omega) hslice hslice'

end LocalMode

end SingularityFlow
