/-
# The layout of an archive

A member, as its octets in the archive show it: its content, and its name
twice, once in the central directory and once in its local header.  `layout`
is the archive of a list of members.

The operations of the reader are characterised against it, one pass of a
loop at a time: `readCentralMember_eq_ok_iff` and `readLocalMember_eq_ok_iff`
say which octets a pass accepts, and the loops follow by induction.
-/
import SingularityFlow.LocalMode.Archive

namespace SingularityFlow

open Ecma

namespace LocalMode

/-! ## Members and layouts -/

/-- A member of an archive; the two names are octets. -/
structure Member where
  path : Text
  mode : Text
  content : Bytes
  centralName : Bytes
  localName : Bytes

/-- What the central directory says of a member at the given offset. -/
def Member.written (m : Member) (offset : Nat) : Written :=
  ⟨m.path, m.mode, m.content.length, (crc32 m.content).toNat, offset⟩

/-- The local header, name and content of a member. -/
def Member.localBytes (m : Member) : Bytes :=
  record (localFields m.localName.length m.content.length (crc32 m.content).toNat)
    ++ (m.localName ++ m.content)

def locals (ms : List Member) : Bytes := ms.flatMap Member.localBytes

/-- The entries of members that are laid out from an offset on. -/
def entriesFrom : Nat → List Member → List Written
  | _, [] => []
  | offset, m :: ms => m.written offset :: entriesFrom (offset + m.localBytes.length) ms

/-- The central header of an entry and its name. -/
def centralBytes (p : Written × Bytes) : Bytes := record (centralFields p.2.length p.1) ++ p.2

def centrals (ps : List (Written × Bytes)) : Bytes := ps.flatMap centralBytes

/-- The central directory of members that are laid out from an offset on. -/
def directory (offset : Nat) (ms : List Member) : Bytes :=
  centrals ((entriesFrom offset ms).zip (ms.map Member.centralName))

/-- The archive of a list of members. -/
def layout (ms : List Member) : Bytes :=
  locals ms ++ (directory 0 ms
    ++ record (endFields ms.length (directory 0 ms).length (locals ms).length))

theorem localFields_sum (n s c : Nat) : ((localFields n s c).map Prod.fst).sum = 30 := by
  simp [localFields]

theorem centralFields_sum (n : Nat) (e : Written) :
    ((centralFields n e).map Prod.fst).sum = 46 := by
  simp [centralFields]

theorem endFields_sum (n s o : Nat) : ((endFields n s o).map Prod.fst).sum = 22 := by
  simp [endFields]

theorem localBytes_length (m : Member) :
    m.localBytes.length = 30 + m.localName.length + m.content.length := by
  rw [Member.localBytes, List.length_append, record_length, localFields_sum, List.length_append]
  omega

theorem centralBytes_length (p : Written × Bytes) :
    (centralBytes p).length = 46 + p.2.length := by
  rw [centralBytes, List.length_append, record_length, centralFields_sum]

theorem entriesFrom_length (offset : Nat) (ms : List Member) :
    (entriesFrom offset ms).length = ms.length := by
  induction ms generalizing offset with
  | nil => rfl
  | cons m ms ih => simp [entriesFrom, ih]

theorem entriesFrom_paths (offset : Nat) (ms : List Member) :
    (entriesFrom offset ms).map (·.path) = ms.map (·.path) := by
  induction ms generalizing offset with
  | nil => rfl
  | cons m ms ih => simp [entriesFrom, ih, Member.written]

theorem layout_length (ms : List Member) :
    (layout ms).length = (locals ms).length + (directory 0 ms).length + 22 := by
  rw [layout, List.length_append, List.length_append, record_length, endFields_sum]
  omega

/-! ## One central entry -/

theorem readExact_eq_ok_iff {file bytes : Bytes} {length position : Nat} :
    readExact file length position = .ok bytes ↔
      slice file position length = bytes ∧ bytes.length = length := by
  unfold readExact
  constructor
  · intro h
    split at h
    · next hl => cases h; exact ⟨rfl, hl⟩
    · cases h
  · rintro ⟨rfl, hl⟩
    rw [if_pos hl]

theorem decodeName_eq_ok_iff {bytes : Bytes} {name : Text} :
    decodeName bytes = .ok name ↔ decodeFatal bytes = some name := by
  unfold decodeName
  split <;> simp_all

theorem readField_lt {width : Nat} {bs : Bytes} {offset : Nat} :
    readField width bs offset < 256 ^ width :=
  (leValue_lt _).trans_le (Nat.pow_le_pow_right (by omega) (slice_length_le ..))

/-- The part of the payload ceiling that an entry uses. -/
def payload (e : Written) : Nat := if isControl e.path then 0 else e.sizeBytes

variable {tables : UnicodeTables}

/-- A central entry and its name, as the reader accepts them. -/
structure CentralOk (tables : UnicodeTables) (p : Written × Bytes) : Prop where
  decoded : decodeFatal p.2 = some p.1.path
  portable : Portable tables p.1.path
  mode : p.1.mode = js "0644" ∨ p.1.mode = js "0755"
  size : p.1.sizeBytes ≤ memberLimit p.1.path
  name : 0 < p.2.length ∧ p.2.length < 2 ^ 16
  crc32 : p.1.crc32 < 2 ^ 32
  localOffset : p.1.localOffset < 2 ^ 32

theorem memberLimit_lt (path : Text) : memberLimit path < 2 ^ 32 := by
  unfold memberLimit LocLimits.maximumManifestBytes LocLimits.maximumEnvelopeBytes
    LocLimits.maximumFileBytes
  split_ifs <;> decide

theorem externalMode_lt (mode : Text) : externalMode mode < 2 ^ 32 :=
  Nat.mod_lt _ (by decide)

theorem centralFields_fit {n : Nat} {e : Written} (hn : n < 2 ^ 16) (hs : e.sizeBytes < 2 ^ 32)
    (hc : e.crc32 < 2 ^ 32) (ho : e.localOffset < 2 ^ 32) :
    ∀ f ∈ centralFields n e, f.2 < 256 ^ f.1 := by
  have he := externalMode_lt e.mode
  simp only [centralFields, List.forall_mem_cons, centralSignature, unixVersion, version, utf8Flag,
    dosDate]
  norm_num
  exact ⟨hc, hs, hn, he, ho⟩

theorem CentralOk.fit {p : Written × Bytes} (h : CentralOk tables p) :
    ∀ f ∈ centralFields p.2.length p.1, f.2 < 256 ^ f.1 :=
  centralFields_fit h.name.2 (h.size.trans_lt (memberLimit_lt _)) h.crc32 h.localOffset

/-- The header of an entry, field by field. -/
theorem eq_centralHeader_iff {fixed : Bytes} {n : Nat} {e : Written} (hlen : fixed.length = 46)
    (hfit : ∀ f ∈ centralFields n e, f.2 < 256 ^ f.1) :
    fixed = record (centralFields n e) ↔
      readUInt32LE fixed 0 = centralSignature ∧ readUInt16LE fixed 4 = unixVersion ∧
        readUInt16LE fixed 6 = version ∧ readUInt16LE fixed 8 = utf8Flag ∧
        readUInt16LE fixed 10 = 0 ∧ readUInt16LE fixed 12 = 0 ∧ readUInt16LE fixed 14 = dosDate ∧
        readUInt32LE fixed 16 = e.crc32 ∧ readUInt32LE fixed 20 = e.sizeBytes ∧
        readUInt32LE fixed 24 = e.sizeBytes ∧ readUInt16LE fixed 28 = n ∧
        readUInt16LE fixed 30 = 0 ∧ readUInt16LE fixed 32 = 0 ∧ readUInt16LE fixed 34 = 0 ∧
        readUInt16LE fixed 36 = 0 ∧ readUInt32LE fixed 38 = externalMode e.mode ∧
        readUInt32LE fixed 42 = e.localOffset := by
  rw [eq_record_iff (by rw [hlen, centralFields_sum]) hfit]
  simp only [centralFields, List.map_cons, List.map_nil, reads, List.cons.injEq, Nat.reduceAdd,
    readUInt32LE, readUInt16LE, and_true]

theorem externalMode_ne : externalMode (js "0644") ≠ externalMode (js "0755") := by decide

theorem readCentralMember_eq_ok_iff {file : Bytes} {cursor declared : Nat}
    {r : Written × Nat × Nat} :
    readCentralMember tables file cursor declared = .ok r ↔
      ∃ p : Written × Bytes, CentralOk tables p ∧
        slice file cursor (46 + p.2.length) = centralBytes p ∧
        (isControl p.1.path = false →
          declared + p.1.sizeBytes ≤ LocLimits.maximumContentBytes) ∧
        r = (p.1, declared + payload p.1, cursor + 46 + p.2.length) := by
  constructor
  · intro h
    simp only [readCentralMember, bind_eq_ok_iff, failIf_eq_ok_iff, readExact_eq_ok_iff,
      decodeName_eq_ok_iff, not_or, ne_eq, not_not, Except.ok.injEq, exists_const] at h
    obtain ⟨fixed, ⟨hfixed, hlen⟩, ⟨h0, h4, h6, h8, h10, h12, h14, h30, h32, h34, h36⟩, hname,
      nameBytes, ⟨hslice, hnlen⟩, name, hdecode, valid, hportable, hmode, hstored, hsize,
      hpayload, rfl⟩ := h
    generalize hm : (if readUInt32LE fixed 38 = externalMode (js "0644") then js "0644"
      else js "0755") = mode
    have hmode' : (mode = js "0644" ∨ mode = js "0755") ∧
        readUInt32LE fixed 38 = externalMode mode := by
      rw [← hm]
      split
      · next he => exact ⟨Or.inl rfl, he⟩
      · next hne => exact ⟨Or.inr rfl, not_not.mp fun hne' => hmode ⟨hne, hne'⟩⟩
    have hlt : readUInt16LE fixed 28 < 2 ^ 16 := readField_lt
    have hok : CentralOk tables (⟨name, mode, readUInt32LE fixed 24, readUInt32LE fixed 16,
        readUInt32LE fixed 42⟩, nameBytes) :=
      ⟨hdecode, portable_of_eq_ok hportable, hmode'.1, not_lt.mp hsize, by dsimp only; omega,
        readField_lt, readField_lt⟩
    refine ⟨_, hok, ?_, ?_, ?_⟩
    · rw [slice_add, hfixed, hnlen, hslice, centralBytes]
      congr 1
      exact (eq_centralHeader_iff hlen hok.fit).mpr ⟨h0, h4, h6, h8, h10, h12, h14, rfl, hstored,
        rfl, hnlen.symm, h30, h32, h34, h36, hmode'.2, rfl⟩
    · intro hcontrol
      simpa [hcontrol] using hpayload
    · cases hc : isControl name <;> simp [payload, hc, hnlen]
  · rintro ⟨p, hp, hslice, hdeclared, rfl⟩
    have hlen : (record (centralFields p.2.length p.1)).length = 46 := by
      rw [record_length, centralFields_sum]
    rw [← hlen] at hslice
    obtain ⟨hfixed, hname⟩ := slice_eq_append_iff.mp hslice
    rw [hlen] at hfixed hname
    have hlen' : (slice file cursor 46).length = 46 := by rw [hfixed, hlen]
    obtain ⟨h0, h4, h6, h8, h10, h12, h14, h16, h20, h24, h28, h30, h32, h34, h36, h38, h42⟩ :=
      (eq_centralHeader_iff hlen' hp.fit).mp hfixed
    have hmode : (if readUInt32LE (slice file cursor 46) 38 = externalMode (js "0644")
        then js "0644" else js "0755") = p.1.mode := by
      rw [h38]
      rcases hp.mode with h | h
      · rw [h, if_pos rfl]
      · rw [h, if_neg externalMode_ne.symm]
    simp only [readCentralMember, bind_eq_ok_iff, failIf_eq_ok_iff, readExact_eq_ok_iff,
      decodeName_eq_ok_iff, not_or, ne_eq, not_not, Except.ok.injEq, exists_const]
    refine ⟨_, ⟨rfl, hlen'⟩, ⟨h0, h4, h6, h8, h10, h12, h14, h30, h32, h34, h36⟩, ?_, p.2, ?_,
      p.1.path, hp.decoded, p.1.path, hp.portable, ?_, ?_, ?_, ?_, ?_⟩
    · rw [h28]; exact hp.name.1.ne'
    · rw [h28]; exact ⟨hname, rfl⟩
    · rw [h38]
      rcases hp.mode with h | h <;> simp [h]
    · rw [h20, h24]
    · rw [h24]; exact not_lt.mpr hp.size
    · rintro ⟨hcontrol, hgt⟩
      rw [if_neg (by simp [hcontrol]), h24] at hgt
      exact absurd (hdeclared hcontrol) (not_le.mpr hgt)
    · rw [hmode, h24, h16, h42, h28]
      cases hc : isControl p.1.path <;> simp [payload, hc]

/-! ## The central directory -/

theorem centrals_cons (p : Written × Bytes) (ps : List (Written × Bytes)) :
    centrals (p :: ps) = centralBytes p ++ centrals ps := by
  simp [centrals]

/-- **What the loop over the central directory accepts.** -/
theorem readCentral_eq_ok_iff {file : Bytes} : ∀ {count cursor declared : Nat}
    {r : List Written × Nat}, declared ≤ LocLimits.maximumContentBytes →
    (readCentral tables file count cursor declared = .ok r ↔
      ∃ ps : List (Written × Bytes), ps.length = count ∧ (∀ p ∈ ps, CentralOk tables p) ∧
        slice file cursor (centrals ps).length = centrals ps ∧
        declared + (ps.map fun p => payload p.1).sum ≤ LocLimits.maximumContentBytes ∧
        r = (ps.map Prod.fst, cursor + (centrals ps).length))
  | 0, cursor, declared, r, hd => by
      rw [readCentral, Except.ok.injEq]
      constructor
      · rintro rfl
        exact ⟨[], rfl, by simp, by simp [centrals, slice], by simpa using hd, rfl⟩
      · rintro ⟨ps, hps, -, -, -, rfl⟩
        obtain rfl := List.eq_nil_of_length_eq_zero hps
        rfl
  | count + 1, cursor, declared, r, hd => by
      simp only [readCentral, bind_eq_ok_iff, readCentralMember_eq_ok_iff, Except.ok.injEq]
      have hpayload : ∀ e : Written, declared + payload e ≤ LocLimits.maximumContentBytes ↔
          (isControl e.path = false → declared + e.sizeBytes ≤ LocLimits.maximumContentBytes) := by
        intro e
        unfold payload
        cases isControl e.path <;> simp [hd]
      constructor
      · rintro ⟨member, ⟨p, hp, hslice, hdeclared, hmember⟩, rest, hrest, rfl⟩
        subst hmember
        have hd' := (hpayload p.1).mpr hdeclared
        obtain ⟨ps, hcount, hok, hslice', hsum, rfl⟩ := (readCentral_eq_ok_iff hd').mp hrest
        refine ⟨p :: ps, by simp [hcount], List.forall_mem_cons.mpr ⟨hp, hok⟩, ?_, ?_, ?_⟩
        · rw [centrals_cons, List.length_append]
          refine slice_eq_append_iff.mpr ⟨by rw [centralBytes_length]; exact hslice, ?_⟩
          rw [centralBytes_length, ← Nat.add_assoc]
          exact hslice'
        · rw [List.map_cons, List.sum_cons]; omega
        · rw [centrals_cons, List.length_append, centralBytes_length, List.map_cons]
          refine Prod.ext rfl ?_
          dsimp only
          omega
      · rintro ⟨ps, hcount, hok, hslice, hsum, rfl⟩
        cases ps with
        | nil => cases hcount
        | cons p ps =>
            obtain ⟨hp, hok⟩ := List.forall_mem_cons.mp hok
            rw [centrals_cons, List.length_append] at hslice
            obtain ⟨hslice, hslice'⟩ := slice_eq_append_iff.mp hslice
            rw [centralBytes_length] at hslice hslice'
            rw [List.map_cons, List.sum_cons] at hsum
            have hd' : declared + payload p.1 ≤ LocLimits.maximumContentBytes := by omega
            refine ⟨_, ⟨p, hp, hslice, (hpayload p.1).mp hd', rfl⟩, _,
              (readCentral_eq_ok_iff hd').mpr ⟨ps, by simpa using hcount, hok, ?_, by omega, rfl⟩, ?_⟩
            · rw [Nat.add_assoc]; exact hslice'
            · rw [centrals_cons, List.length_append, centralBytes_length, List.map_cons]
              refine Prod.ext rfl ?_
              dsimp only
              omega

/-! ## One local member -/

theorem crcUpdate_append (crc : UInt32) (a b : Bytes) :
    crcUpdate crc (a ++ b) = crcUpdate (crcUpdate crc a) b := by
  simp [crcUpdate]

theorem foldl_crcUpdate (crc : UInt32) (chunks : List Bytes) :
    chunks.foldl crcUpdate crc = crcUpdate crc chunks.flatten := by
  induction chunks generalizing crc with
  | nil => rfl
  | cons chunk chunks ih => rw [List.foldl_cons, ih, List.flatten_cons, crcUpdate_append]

/-- Read chunk by chunk, the content is the slice. -/
theorem readChunks_iff {file : Bytes} (content : Bytes) : ∀ {fuel offset remaining : Nat},
    remaining ≤ fuel →
    ((∃ chunks, readChunks file fuel offset remaining = .ok chunks ∧ chunks.flatten = content) ↔
      content.length = remaining ∧ slice file offset remaining = content)
  | 0, offset, remaining, h => by
      obtain rfl : remaining = 0 := by omega
      simp only [readChunks, Except.ok.injEq, slice_zero]
      constructor
      · rintro ⟨chunks, rfl, rfl⟩; exact ⟨rfl, rfl⟩
      · rintro ⟨-, rfl⟩; exact ⟨[], rfl, rfl⟩
  | fuel + 1, offset, remaining, h => by
      rw [readChunks]
      by_cases hr : remaining = 0
      · subst hr
        simp only [if_true, Except.ok.injEq, slice_zero]
        constructor
        · rintro ⟨chunks, rfl, rfl⟩; exact ⟨rfl, rfl⟩
        · rintro ⟨-, rfl⟩; exact ⟨[], rfl, rfl⟩
      · simp only [if_neg hr, bind_eq_ok_iff, readExact_eq_ok_iff, Except.ok.injEq]
        set n := min (1024 * 1024) remaining with hn
        have hn' : n ≤ remaining := Nat.min_le_right ..
        have hpos : 0 < n := by omega
        have ih : ∀ c : Bytes, (∃ chunks, readChunks file fuel (offset + n) (remaining - n)
            = .ok chunks ∧ chunks.flatten = c) ↔
            c.length = remaining - n ∧ slice file (offset + n) (remaining - n) = c :=
          fun c => readChunks_iff c (by omega)
        constructor
        · rintro ⟨-, ⟨chunk, ⟨hslice, hlen⟩, rest, hrest, rfl⟩, rfl⟩
          obtain ⟨hlen', hslice'⟩ := (ih rest.flatten).mp ⟨rest, hrest, rfl⟩
          refine ⟨by rw [List.flatten_cons, List.length_append, hlen, hlen']; omega, ?_⟩
          rw [show remaining = n + (remaining - n) by omega, slice_add, hslice, hslice',
            List.flatten_cons]
        · rintro ⟨hlen, hslice⟩
          rw [show remaining = n + (remaining - n) by omega, slice_add] at hslice
          have h₁ := slice_length_le file offset n
          have h₂ := slice_length_le file (offset + n) (remaining - n)
          have := congrArg List.length hslice
          rw [List.length_append, hlen] at this
          obtain ⟨rest, hrest, hflat⟩ :=
            (ih (slice file (offset + n) (remaining - n))).mpr ⟨by omega, rfl⟩
          exact ⟨_, ⟨slice file offset n, ⟨rfl, by omega⟩, rest, hrest, rfl⟩, by
            rw [List.flatten_cons, hflat, hslice]⟩

/-- What `inspectLocArchive` reports of a member that is laid out at an offset. -/
def Member.summary (m : Member) (offset : Nat) : Summary :=
  ⟨m.written offset, offset + 30 + m.localName.length, js "sha256:" ++ sha256Hex m.content⟩

/-- A local header and its name, as the reader accepts them. -/
structure LocalOk (m : Member) : Prop where
  decoded : decodeFatal m.localName = some m.path
  name : m.localName.length < 2 ^ 16
  size : m.content.length < 2 ^ 32

theorem localFields_fit {n s : Nat} (content : Bytes) (hn : n < 2 ^ 16) (hs : s < 2 ^ 32) :
    ∀ f ∈ localFields n s (crc32 content).toNat, f.2 < 256 ^ f.1 := by
  have hc := (crc32 content).toNat_lt
  simp only [localFields, List.forall_mem_cons, localSignature, version, utf8Flag, dosDate]
  norm_num
  exact ⟨hc, hs, hn⟩

theorem LocalOk.fit {m : Member} (h : LocalOk m) :
    ∀ f ∈ localFields m.localName.length m.content.length (crc32 m.content).toNat,
      f.2 < 256 ^ f.1 :=
  localFields_fit m.content h.name h.size

/-- The header of a local member, field by field. -/
theorem eq_localHeader_iff {fixed : Bytes} {n s c : Nat} (hlen : fixed.length = 30)
    (hfit : ∀ f ∈ localFields n s c, f.2 < 256 ^ f.1) :
    fixed = record (localFields n s c) ↔
      readUInt32LE fixed 0 = localSignature ∧ readUInt16LE fixed 4 = version ∧
        readUInt16LE fixed 6 = utf8Flag ∧ readUInt16LE fixed 8 = 0 ∧ readUInt16LE fixed 10 = 0 ∧
        readUInt16LE fixed 12 = dosDate ∧ readUInt32LE fixed 14 = c ∧ readUInt32LE fixed 18 = s ∧
        readUInt32LE fixed 22 = s ∧ readUInt16LE fixed 26 = n ∧ readUInt16LE fixed 28 = 0 := by
  rw [eq_record_iff (by rw [hlen, localFields_sum]) hfit]
  simp only [localFields, List.map_cons, List.map_nil, reads, List.cons.injEq, Nat.reduceAdd,
    readUInt32LE, readUInt16LE, and_true]

theorem readLocalMember_eq_ok_iff {file : Bytes} {centralOffset expected : Nat} {entry : Written}
    {r : Summary × Nat} (centralName : Bytes) :
    readLocalMember file centralOffset expected entry = .ok r ↔
      ∃ m : Member, m.centralName = centralName ∧ m.written expected = entry ∧
        expected < centralOffset ∧ LocalOk m ∧
        slice file expected m.localBytes.length = m.localBytes ∧
        r = (m.summary expected, expected + m.localBytes.length) := by
  constructor
  · intro h
    simp only [readLocalMember, bind_eq_ok_iff, failIf_eq_ok_iff, readExact_eq_ok_iff,
      decodeName_eq_ok_iff, not_or, ne_eq, not_not, Except.ok.injEq, exists_const, not_le,
      ge_iff_le] at h
    obtain ⟨⟨hoffset, hlt⟩, fixed, ⟨hfixed, hlen⟩, ⟨h0, h4, h6, h8, h10, h12, h14, h18, h22, h28⟩,
      nameBytes, ⟨hname, hnlen⟩, name, hdecode, rfl, chunks, hchunks, hcrc, rfl⟩ := h
    subst hoffset
    obtain ⟨hclen, hcontent⟩ := (readChunks_iff chunks.flatten (le_refl _)).mp
      ⟨chunks, hchunks, rfl⟩
    have hcrc' : (crc32 chunks.flatten).toNat = entry.crc32 := by
      rw [crc32, ← foldl_crcUpdate, hcrc]
    have hs : entry.sizeBytes < 2 ^ 32 := h18 ▸ readField_lt
    have hn : nameBytes.length < 2 ^ 16 := hnlen ▸ readField_lt
    have hok : LocalOk ⟨entry.path, entry.mode, chunks.flatten, centralName, nameBytes⟩ :=
      ⟨hdecode, hn, by dsimp only; omega⟩
    have hlb := localBytes_length ⟨entry.path, entry.mode, chunks.flatten, centralName, nameBytes⟩
    dsimp only at hlb
    refine ⟨⟨entry.path, entry.mode, chunks.flatten, centralName, nameBytes⟩, rfl, ?_, hlt, hok,
      ?_, ?_⟩
    · rw [Member.written]
      dsimp only
      rw [hclen, hcrc']
    · rw [hlb, hclen, Nat.add_assoc, slice_add, slice_add, hfixed, hnlen, hname, hcontent,
        Member.localBytes]
      congr 1
      refine (eq_localHeader_iff hlen hok.fit).mpr ⟨h0, h4, h6, h8, h10, h12, ?_, ?_, ?_,
        hnlen.symm, h28⟩
      · rw [h14, hcrc']
      · rw [h18, hclen]
      · rw [h22, hclen]
    · rw [hlb, Member.summary, Member.written]
      dsimp only
      rw [hclen, hcrc', hnlen]
      refine Prod.ext rfl ?_
      dsimp only
      omega
  · rintro ⟨m, -, rfl, hlt, hok, hslice, rfl⟩
    have hlen : (record (localFields m.localName.length m.content.length
        (crc32 m.content).toNat)).length = 30 := by rw [record_length, localFields_sum]
    rw [Member.localBytes, List.length_append] at hslice
    obtain ⟨hfixed, hrest⟩ := slice_eq_append_iff.mp hslice
    rw [List.length_append] at hrest
    obtain ⟨hname, hcontent⟩ := slice_eq_append_iff.mp hrest
    rw [hlen] at hfixed hname hcontent
    have hlen' : (slice file expected 30).length = 30 := by rw [hfixed, hlen]
    obtain ⟨h0, h4, h6, h8, h10, h12, h14, h18, h22, h26, h28⟩ :=
      (eq_localHeader_iff hlen' hok.fit).mp hfixed
    obtain ⟨chunks, hchunks, hflat⟩ := (readChunks_iff m.content (le_refl _)).mpr ⟨rfl, hcontent⟩
    simp only [readLocalMember, bind_eq_ok_iff, failIf_eq_ok_iff, readExact_eq_ok_iff,
      decodeName_eq_ok_iff, not_or, ne_eq, not_not, Except.ok.injEq, exists_const, not_le,
      ge_iff_le]
    refine ⟨⟨rfl, hlt⟩, _, ⟨rfl, hlen'⟩, ⟨h0, h4, h6, h8, h10, h12, h14, h18, h22, h28⟩,
      m.localName, ?_, m.path, hok.decoded, rfl, chunks, ?_, ?_, ?_⟩
    · dsimp only [Member.written]; rw [h26]; exact ⟨hname, rfl⟩
    · dsimp only [Member.written]; rw [h26]; exact hchunks
    · rw [foldl_crcUpdate, hflat]; rfl
    · dsimp only [Member.summary, Member.written]
      rw [h26, hflat, localBytes_length]
      refine Prod.ext rfl ?_
      dsimp only
      omega

/-! ## The local members -/

theorem locals_cons (m : Member) (ms : List Member) :
    locals (m :: ms) = m.localBytes ++ locals ms := by
  simp [locals]

/-- What the reader reports of members that are laid out from an offset on. -/
def summariesFrom : Nat → List Member → List Summary
  | _, [] => []
  | offset, m :: ms => m.summary offset :: summariesFrom (offset + m.localBytes.length) ms

theorem summariesFrom_entries (offset : Nat) (ms : List Member) :
    (summariesFrom offset ms).map Summary.entry = entriesFrom offset ms := by
  induction ms generalizing offset with
  | nil => rfl
  | cons m ms ih => rw [summariesFrom, List.map_cons, ih]; rfl

/-- **What the loop over the local members accepts.** -/
theorem readLocals_eq_ok_iff {file : Bytes} {centralOffset : Nat} :
    ∀ {expected : Nat} {ps : List (Written × Bytes)} {r : List Summary × Nat},
    (readLocals file centralOffset expected (ps.map Prod.fst) = .ok r ↔
      ∃ ms : List Member, (entriesFrom expected ms).zip (ms.map Member.centralName) = ps ∧
        (∀ e ∈ entriesFrom expected ms, e.localOffset < centralOffset) ∧
        (∀ m ∈ ms, LocalOk m) ∧ slice file expected (locals ms).length = locals ms ∧
        r = (summariesFrom expected ms, expected + (locals ms).length))
  | expected, [], r => by
      rw [List.map_nil, readLocals, Except.ok.injEq]
      constructor
      · rintro rfl
        exact ⟨[], rfl, by simp [entriesFrom], by simp, by simp [locals, slice], rfl⟩
      · rintro ⟨ms, hms, -, -, -, rfl⟩
        cases ms with
        | nil => rfl
        | cons m ms => cases hms
  | expected, p :: ps, r => by
      simp only [List.map_cons, readLocals, bind_eq_ok_iff, Except.ok.injEq]
      constructor
      · rintro ⟨_, hmember, _, hrest, rfl⟩
        obtain ⟨m, hcentral, hwritten, hlt, hok, hslice, rfl⟩ :=
          (readLocalMember_eq_ok_iff p.2).mp hmember
        obtain ⟨ms, rfl, hlts, hoks, hslice', rfl⟩ := readLocals_eq_ok_iff.mp hrest
        refine ⟨m :: ms, ?_, List.forall_mem_cons.mpr ⟨hlt, hlts⟩,
          List.forall_mem_cons.mpr ⟨hok, hoks⟩, ?_, ?_⟩
        · rw [entriesFrom, List.map_cons, List.zip_cons_cons, hwritten, hcentral]
        · rw [locals_cons, List.length_append]
          exact slice_eq_append_iff.mpr ⟨hslice, hslice'⟩
        · rw [locals_cons, List.length_append, summariesFrom, Nat.add_assoc]
      · rintro ⟨ms, hms, hlts, hoks, hslice, rfl⟩
        cases ms with
        | nil => cases hms
        | cons m ms =>
            rw [entriesFrom, List.map_cons, List.zip_cons_cons, List.cons.injEq] at hms
            obtain ⟨rfl, rfl⟩ := hms
            obtain ⟨hlt, hlts⟩ := List.forall_mem_cons.mp hlts
            obtain ⟨hok, hoks⟩ := List.forall_mem_cons.mp hoks
            rw [locals_cons, List.length_append] at hslice
            obtain ⟨hslice, hslice'⟩ := slice_eq_append_iff.mp hslice
            refine ⟨_, (readLocalMember_eq_ok_iff m.centralName).mpr ⟨m, rfl, rfl, hlt, hok, hslice, rfl⟩, _,
              readLocals_eq_ok_iff.mpr ⟨ms, rfl, hlts, hoks, hslice', rfl⟩, ?_⟩
            rw [locals_cons, List.length_append, summariesFrom, Nat.add_assoc]

end LocalMode

end SingularityFlow
