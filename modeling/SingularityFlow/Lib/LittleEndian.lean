/-
# Little-endian fields in octet strings

`leBytes w v` is `v` in `w` octets, `leValue` reads octets back, and
`slice b k n` is what a read of `n` octets at offset `k` returns.  A record
is a list of fields, each a width and a value; `readField` reads one at its
offset.

Reading and writing a record are inverse in both directions: a record is
determined by its fields (`record_reads`), and its fields are read back
wherever it stands (`reads_record`).
-/
import SingularityFlow.Lib.Utf8

namespace Ecma

/-! ## Numbers -/

/-- A number in `width` octets, the least significant first. -/
def leBytes : Nat → Nat → Bytes
  | 0, _ => []
  | width + 1, value => UInt8.ofNat value :: leBytes width (value / 256)

/-- The number that octets spell, the least significant first. -/
def leValue : Bytes → Nat
  | [] => 0
  | b :: bs => b.toNat + 256 * leValue bs

@[simp] theorem leBytes_length (width value : Nat) : (leBytes width value).length = width := by
  induction width generalizing value with
  | zero => rfl
  | succ width ih => simp [leBytes, ih]

theorem leValue_lt (bs : Bytes) : leValue bs < 256 ^ bs.length := by
  induction bs with
  | nil => simp [leValue]
  | cons b bs ih =>
      have := b.toNat_lt
      rw [leValue, List.length_cons, Nat.pow_succ]
      omega

theorem leValue_leBytes {width value : Nat} (h : value < 256 ^ width) :
    leValue (leBytes width value) = value := by
  induction width generalizing value with
  | zero => simp [leBytes, leValue] at *; omega
  | succ width ih =>
      have hlt : value / 256 < 256 ^ width := by
        rw [Nat.pow_succ] at h
        exact Nat.div_lt_of_lt_mul (by omega)
      rw [leBytes, leValue, ih hlt, UInt8.toNat_ofNat']
      omega

theorem leBytes_leValue (bs : Bytes) : leBytes bs.length (leValue bs) = bs := by
  induction bs with
  | nil => rfl
  | cons b bs ih =>
      have hb := b.toNat_lt
      have hdiv : (b.toNat + 256 * leValue bs) / 256 = leValue bs := by omega
      have hmod : UInt8.ofNat (b.toNat + 256 * leValue bs) = b := by
        refine UInt8.toNat_inj.mp ?_
        rw [UInt8.toNat_ofNat']
        omega
      rw [List.length_cons, leBytes, leValue, hdiv, ih, hmod]

/-! ## Reads at an offset -/

/-- The octets from `offset` on, at most `length` of them. -/
def slice (bs : Bytes) (offset length : Nat) : Bytes := (bs.drop offset).take length

/-- `buffer.readUIntLE(offset, width)`. -/
def readField (width : Nat) (bs : Bytes) (offset : Nat) : Nat := leValue (slice bs offset width)

theorem slice_append (pre mid post : Bytes) {offset length : Nat} (hp : pre.length = offset)
    (hm : mid.length = length) : slice (pre ++ (mid ++ post)) offset length = mid := by
  subst hp hm
  simp [slice]

theorem slice_length_le (bs : Bytes) (offset length : Nat) :
    (slice bs offset length).length ≤ length := by
  simp [slice]

/-- Adjacent slices are one slice. -/
theorem slice_add (bs : Bytes) (offset m n : Nat) :
    slice bs offset (m + n) = slice bs offset m ++ slice bs (offset + m) n := by
  rw [slice, slice, slice, List.take_add, List.drop_drop]

/-- Reading two parts at once is reading each in its place. -/
theorem slice_eq_append_iff {bs a b : Bytes} {offset : Nat} :
    slice bs offset (a.length + b.length) = a ++ b ↔
      slice bs offset a.length = a ∧ slice bs (offset + a.length) b.length = b := by
  rw [slice_add]
  constructor
  · intro h
    have h₁ := slice_length_le bs offset a.length
    have h₂ := slice_length_le bs (offset + a.length) b.length
    have := congrArg List.length h
    rw [List.length_append, List.length_append] at this
    exact List.append_inj h (by omega)
  · rintro ⟨h₁, h₂⟩
    rw [h₁, h₂]

theorem slice_zero (bs : Bytes) (offset : Nat) : slice bs offset 0 = [] := by simp [slice]

theorem slice_slice {bs : Bytes} {offset length i n : Nat} (h : i + n ≤ length) :
    slice (slice bs offset length) i n = slice bs (offset + i) n := by
  rw [slice, slice, slice, List.drop_take, List.take_take, List.drop_drop,
    Nat.min_eq_left (by omega)]

theorem readField_slice {bs : Bytes} {offset length i w : Nat} (h : i + w ≤ length) :
    readField w (slice bs offset length) i = readField w bs (offset + i) := by
  rw [readField, readField, slice_slice h]

/-! ## Records -/

/-- The octets of fields, each a width and a value. -/
def record (fields : List (Nat × Nat)) : Bytes := fields.flatMap fun f => leBytes f.1 f.2

/-- The values of fields of the given widths, read one behind the other. -/
def reads (bs : Bytes) : Nat → List Nat → List Nat
  | _, [] => []
  | offset, width :: widths => readField width bs offset :: reads bs (offset + width) widths

@[simp] theorem record_nil : record [] = [] := rfl

@[simp] theorem record_cons (f : Nat × Nat) (fields : List (Nat × Nat)) :
    record (f :: fields) = leBytes f.1 f.2 ++ record fields := by
  simp [record]

theorem record_length (fields : List (Nat × Nat)) :
    (record fields).length = (fields.map Prod.fst).sum := by
  induction fields with
  | nil => rfl
  | cons f fields ih => simp [ih]

/-- Octets are the record of the fields that are read from them. -/
theorem record_reads (bs : Bytes) : ∀ (widths : List Nat) (offset : Nat),
    offset + widths.sum ≤ bs.length →
    record (widths.zip (reads bs offset widths)) = slice bs offset widths.sum
  | [], offset, _ => by simp [slice]
  | width :: widths, offset, h => by
      rw [List.sum_cons] at h
      have hw : (slice bs offset width).length = width := by simp [slice]; omega
      have ih := record_reads bs widths (offset + width) (by omega)
      have hf : leBytes width (readField width bs offset) = slice bs offset width := by
        have := leBytes_leValue (slice bs offset width)
        rwa [hw] at this
      rw [reads, List.zip_cons_cons, record_cons, ih, hf, List.sum_cons, slice_add]

/-- The fields of a record are read back wherever it stands. -/
theorem reads_record : ∀ (fields : List (Nat × Nat)) (pre post : Bytes) (offset : Nat),
    pre.length = offset → (∀ f ∈ fields, f.2 < 256 ^ f.1) →
    reads (pre ++ (record fields ++ post)) offset (fields.map Prod.fst) = fields.map Prod.snd
  | [], _, _, _, _, _ => rfl
  | f :: fields, pre, post, offset, hp, h => by
      have ih := reads_record fields (pre ++ leBytes f.1 f.2) post (offset + f.1)
        (by simp [hp]) fun g hg => h g (List.mem_cons_of_mem _ hg)
      rw [List.append_assoc] at ih
      rw [List.map_cons, List.map_cons, reads, readField, record_cons, List.append_assoc,
        slice_append pre _ _ hp (leBytes_length ..), leValue_leBytes (h f (List.mem_cons_self ..)), ih]

/-- **Octets of the right length are a record exactly when they read as its fields.** -/
theorem eq_record_iff {bs : Bytes} {fields : List (Nat × Nat)}
    (hlen : bs.length = (fields.map Prod.fst).sum) (hfit : ∀ f ∈ fields, f.2 < 256 ^ f.1) :
    bs = record fields ↔ reads bs 0 (fields.map Prod.fst) = fields.map Prod.snd := by
  constructor
  · rintro rfl
    have := reads_record fields [] [] 0 rfl hfit
    simpa using this
  · intro h
    have := record_reads bs (fields.map Prod.fst) 0 (by omega)
    rw [h, List.zip_map', List.map_id'' (fun _ => rfl), slice, List.drop_zero, ← hlen,
      List.take_length] at this
    exact this.symm

end Ecma
