/-
# The bytes that a control successor says it has taken

Behind every transition of a process stand its record indexes, its control
event and one successor record, and that record carries the bytes that all of
these have taken since the process began, its own included.  So it prints a
number that its own length decides.

The printing is a fixed text but for the digits of the number
(`recordBytes_counted`), because the digest that seals the record has the same
length whatever it digests.  From its first value the count can only grow, and
by no more than the digits do, so it takes at most one power of ten on the way
and stands after four rounds of the eight (`counts_settle`).
-/
import SingularityFlow.Errors
import SingularityFlow.Ledger.Records
import SingularityFlow.Lib.ByteLength

namespace SingularityFlow

open Ecma

namespace Sgos

/-! ## Records -/

/-- The own members of a record. -/
abbrev Members := List (Text × Value)

/-- `canonicalJson`: names in order, two spaces for a level. -/
def canonicalJson (v : Value) : Text := stringify (js "  ") (Ledger.canonicalize v) ++ js "\n"

/-- `Buffer.byteLength(canonicalJson(record))`. -/
def recordBytes (record : Members) : Nat := byteLength (canonicalJson (.obj record))

def recordSha256 (v : Value) : Text := sha256Hex (textEncode (canonicalJson v))

/-- `delete record[name]`. -/
def deleteMember (record : Members) (name : Text) : Members := record.filter fun p => p.1 ≠ name

def hashWithout (record : Members) (hashField : Text) : Text :=
  js "sha256:" ++ recordSha256 (.obj (deleteMember record hashField))

def successorHash : Text := js "successorSha256"
def bytesField : Text := js "cumulativeInfrastructureBytes"
def recordsField : Text := js "cumulativeInfrastructureRecords"

def sealSgosControlSuccessor (value : Members) : Members :=
  let core := deleteMember
    (define (define value (js "schemaVersion") (.num (Number.ofNat 1)))
      (js "kind") (.str (js "sgos-control-successor"))) successorHash
  define core successorHash (.str (hashWithout core successorHash))

/-- The successor that says `bytes` and `records`. -/
def counted (value : Members) (bytes records : Nat) : Members :=
  sealSgosControlSuccessor
    (define (define value bytesField (.num (Number.ofNat bytes)))
      recordsField (.num (Number.ofNat records)))

/-! ## The count -/

/-- Rounds of a loop that ends where its step changes nothing, with fuel. -/
def settled (step : Nat → Nat) : Nat → Nat → Nat
  | 0, n => n
  | fuel + 1, n => if step n = n then n else settled step fuel (step n)

/-- `exact`, from the count that the record is sealed with. -/
def exactBytes (value : Members) (base records n : Nat) : Nat :=
  base + recordBytes (counted value n records)

def lineageInvalid (message : Text) : Failure :=
  .singularityFlow message (some (js "SGOS_CONTROL_LINEAGE_INVALID"))

/-- The accounting did not converge. -/
def notConverged : Failure :=
  .singularityFlow (js "SGOS control successor infrastructure accounting did not converge.")
    (some (js "SGOS_PROCESS_RECORD_BUDGET_EXCEEDED"))

/-- The loop of `prepareSgosControlSuccessor` and the check behind it. -/
def sealCounted (value : Members) (base records : Nat) : Except Failure (Nat × Members) :=
  let bytes := settled (exactBytes value base records) 8 base
  let record := counted value bytes records
  if base + recordBytes record ≠ bytes then .error notConverged else .ok (bytes, record)

/-- What the preparation reads of the store. -/
structure Reads where
  /-- `readSgosImmutableRecord`, by family and digest. -/
  record : Text → Option Value → Except Failure Members
  /-- `readSgosControlSuccessor`. -/
  successor : Option Value → Except Failure (Option Members)

/-- The prior counters; a stored successor has passed its contract, which asks for safe integers. -/
def safeCounter (record : Members) (name : Text) : Except Failure Nat :=
  match (lookup name record).bind fun v => match v with
    | .num x => x.safeSize?
    | _ => none with
  | some n => .ok n
  | none => .error (lineageInvalid (js "SGOS control successor failed its strict contract."))

def controlHash : Text := js "controlEventSha256"
def priorField : Text := js "priorControlEventSha256"

/-- `priorInfrastructureBytes` and `priorInfrastructureRecords`. -/
def priorInfrastructure (reads : Reads) (event : Members) : Except Failure (Nat × Nat) :=
  if lookup priorField event = some .null then .ok (0, 0)
  else do
    let priorEvent ← reads.record (js "sgos-control-event") (lookup priorField event)
    let priorSuccessor ← reads.successor (lookup (js "beforeProcessSha256") priorEvent)
    match priorSuccessor with
    | some successor =>
        if lookup controlHash successor ≠ lookup controlHash priorEvent then
          .error (lineageInvalid
            (js "SGOS control successor cannot extend an incomplete infrastructure lineage."))
        else do
          let bytes ← safeCounter successor bytesField
          let records ← safeCounter successor recordsField
          return (bytes, records)
    | none => .error (lineageInvalid
        (js "SGOS control successor cannot extend an incomplete infrastructure lineage."))

/-- What the checks behind the accounting ask: the process, the strict
contract, the index head and the room that is left.  They only refuse. -/
abbrev Admission := Members → Members → List Members → Except Failure Unit

/-- What one transition leaves behind besides its records. -/
structure Transition where
  indexes : List Members
  event : Members
  successor : Members
deriving DecidableEq

/-- The bytes of all that a transition leaves. -/
def Transition.bytes (t : Transition) : Nat :=
  (t.indexes.map recordBytes).sum + recordBytes t.event + recordBytes t.successor

/-- `suppliedEvent`, or the event that the value names. -/
def controlEvent (reads : Reads) (value : Members) : Option Members → Except Failure Members
  | some event => .ok event
  | none => reads.record (js "sgos-control-event") (lookup controlHash value)

/-- `publishedIndexes`, or the one index that the event names. -/
def recordIndexes (reads : Reads) (event : Members) :
    Option (List Members) → Except Failure (List Members)
  | some indexes => .ok indexes
  | none => do
      let index ← reads.record (js "sgos-record-index") (lookup (js "recordIndexSha256") event)
      return [index]

/-- `prepareSgosControlSuccessor`; it returns the successor, here with what it accounts for. -/
def prepareSgosControlSuccessor (reads : Reads) (checks : Admission) (value : Members)
    (suppliedEvent : Option Members) (publishedIndexes : Option (List Members)) :
    Except Failure Transition := do
  let event ← controlEvent reads value suppliedEvent
  failIf (lookup controlHash event ≠ lookup controlHash value) (lineageInvalid
    (js "SGOS control successor event does not match its declared control hash."))
  let prior ← priorInfrastructure reads event
  let indexes ← recordIndexes reads event publishedIndexes
  failIf (indexes = []) (.singularityFlow
    (js "SGOS control successor requires its exact published record-index set.")
    (some (js "SGOS_RECORD_INDEX_INVALID")))
  let base := prior.1 + (indexes.map recordBytes).sum + recordBytes event
  let counted ← sealCounted value base (prior.2 + indexes.length + 2)
  -- the strict contract asks for a safe integer
  failIf (2 ^ 53 ≤ counted.1) (.singularityFlow
    (js "SGOS control successor failed its strict contract.") (some (js "SGOS_RECORD_INVALID")))
  checks counted.2 event indexes
  return { indexes, event, successor := counted.2 }

/-! ## Members that are set -/

section Delete

variable {l rest : Members} {name other : Text} {w : Value}

theorem deleteMember_nodup (hl : (l.map Prod.fst).Nodup) :
    ((deleteMember l name).map Prod.fst).Nodup := hl.sublist (List.filter_sublist.map _)

theorem deleteMember_perm_cons (h : l.Perm ((other, w) :: rest)) (hne : other ≠ name) :
    (deleteMember l name).Perm ((other, w) :: deleteMember rest name) := by
  refine (h.filter _).trans ?_
  rw [List.filter_cons_of_pos (by simp [hne])]
  rfl

theorem lookup_deleteMember_of_ne (hne : other ≠ name) :
    lookup other (deleteMember l name) = lookup other l := by
  unfold lookup deleteMember
  rw [List.find?_filter]
  congr 1
  refine List.find?_congr fun p _ => ?_
  by_cases h : p.1 = other <;> simp [h, hne]

end Delete

/-! ## The size of a record -/

theorem canonicalizeMembers_eq (l : Members) :
    Ledger.canonicalizeMembers l = l.map fun p => (p.1, Ledger.canonicalize p.2) := by
  induction l with
  | nil => rfl
  | cons p l ih => rw [Ledger.canonicalizeMembers, ih, List.map_cons]

/-- What a member of a record costs. -/
def memberBytes (p : Text × Value) : Nat :=
  memberLength (js "  ") (js "  ") (p.1, ordered (Ledger.canonicalize p.2))

theorem display_ascii : (∀ u ∈ js "  ", u.toNat < 0x80) ∧ ∀ u ∈ ([] : Text), u.toNat < 0x80 :=
  ⟨ascii_of_all rfl, ascii_of_all rfl⟩

/-- **A record costs its members and a frame**, in whatever order they stand. -/
theorem recordBytes_eq (l : Members) :
    recordBytes l = (l.map memberBytes).sum + frameLength (js "  ") [] l.length + 1 := by
  have hprinted : ordered (Ledger.canonicalize (.obj l))
      = .obj (propertyOrder (orderedMembers (sortMembers (Ledger.canonicalizeMembers l)))) := rfl
  have hperm : (propertyOrder (orderedMembers (sortMembers (Ledger.canonicalizeMembers l)))).Perm
      (l.map fun p => (p.1, ordered (Ledger.canonicalize p.2))) := by
    refine (propertyOrder_perm _).trans ?_
    rw [orderedMembers_eq, canonicalizeMembers_eq]
    refine ((sortMembers_perm _).map _).trans ?_
    rw [List.map_map]
    exact List.Perm.refl _
  rw [recordBytes, canonicalJson, stringify, hprinted,
    byteLength_append (render_wellFormed display_ascii.1 display_ascii.2 _),
    byteLength_obj_perm display_ascii.1 display_ascii.2 hperm,
    byteLength_obj display_ascii.1 display_ascii.2, List.map_map, List.length_map]
  rfl

theorem recordBytes_perm {l l' : Members} (h : l.Perm l') : recordBytes l = recordBytes l' := by
  rw [recordBytes_eq, recordBytes_eq, (h.map _).sum_eq, h.length_eq]

/-- Every digest costs the same. -/
theorem memberBytes_digest (name : Text) (l : Members) (hashField : Text) :
    memberBytes (name, .str (hashWithout l hashField)) = byteLength (quote name) + 75 := by
  have hplain : ∀ u ∈ hashWithout l hashField, isPlainUnit u = true :=
    List.forall_mem_append.mpr ⟨List.all_eq_true.mp rfl, isPlainUnit_hexText _⟩
  have hlength : byteLength (quote (hashWithout l hashField)) = 73 := by
    rw [byteLength_quote_plain hplain, hashWithout, List.length_append, recordSha256, sha256Hex,
      length_hexText, length_digest]
    rfl
  simp only [memberBytes, memberLength, Ledger.canonicalize, ordered, render, hlength]
  rfl

/-- Records that hold the count and, beside it, what does not depend on it. -/
def Carries (record : Nat → Members) (rest : Members) : Prop :=
  ∀ n, ((record n).map Prod.fst).Nodup
    ∧ (record n).Perm ((bytesField, .num (Number.ofNat n)) :: rest)

theorem Carries.define {record : Nat → Members} {rest : Members} (h : Carries record rest)
    (name : Text) (hne : bytesField ≠ name) (v : Value) :
    Carries (fun n => Ecma.define (record n) name v)
      ((name, v) :: rest.filter fun p => p.1 ≠ name) :=
  fun n => ⟨define_nodup (h n).1, define_perm_cons (h n).1 (h n).2 hne⟩

theorem Carries.deleteMember {record : Nat → Members} {rest : Members} (h : Carries record rest)
    (name : Text) (hne : bytesField ≠ name) :
    Carries (fun n => Sgos.deleteMember (record n) name) (Sgos.deleteMember rest name) :=
  fun n => ⟨deleteMember_nodup (h n).1, deleteMember_perm_cons (h n).2 hne⟩

/-- Apart from the count and the digest, a counted successor does not depend on the count. -/
theorem counted_perm {value : Members} (hvalue : (value.map Prod.fst).Nodup) (records : Nat) :
    ∃ rest, ∀ n, ∃ l, (counted value n records).Perm
      ((bytesField, .num (Number.ofNat n))
        :: (successorHash, .str (hashWithout l successorHash)) :: rest) := by
  have hcount : Carries (fun n => define value bytesField (.num (Number.ofNat n)))
      (value.filter fun p => p.1 ≠ bytesField) :=
    fun n => ⟨define_nodup hvalue, define_perm hvalue⟩
  have hrecords := hcount.define recordsField (by decide) (.num (Number.ofNat records))
  have hversion := hrecords.define (js "schemaVersion") (by decide) (.num (Number.ofNat 1))
  have hkind := hversion.define (js "kind") (by decide)
    (.str (js "sgos-control-successor"))
  have hcore := hkind.deleteMember successorHash (by decide)
  exact ⟨_, fun n => ⟨_, define_perm_cons (hcore n).1 (hcore n).2 (by decide)⟩⟩

/-- **The count costs its digits**: nothing else of the record depends on it. -/
theorem recordBytes_counted {value : Members} (hvalue : (value.map Prod.fst).Nodup)
    (records : Nat) :
    ∃ envelope, ∀ n, n < 2 ^ 53 →
      recordBytes (counted value n records) = envelope + (Nat.log 10 n + 1) := by
  obtain ⟨rest, hrest⟩ := counted_perm hvalue records
  refine ⟨memberLength (js "  ") (js "  ") (bytesField, .str [])
      - byteLength (render (js "  ") (js "  ") (.str []))
    + (byteLength (quote successorHash) + 75)
    + (rest.map memberBytes).sum + frameLength (js "  ") [] (rest.length + 1 + 1) + 1, fun n hn => ?_⟩
  obtain ⟨l, hl⟩ := hrest n
  have hcount : memberBytes (bytesField, .num (Number.ofNat n))
      = memberLength (js "  ") (js "  ") (bytesField, .str [])
        - byteLength (render (js "  ") (js "  ") (.str [])) + (Nat.log 10 n + 1) := by
    rw [memberBytes, memberLength, memberLength, ← byteLength_counter hn (js "  ") (js "  "),
      Nat.add_sub_cancel]
    rfl
  rw [recordBytes_perm hl, recordBytes_eq]
  simp only [List.map_cons, List.sum_cons, List.length_cons, hcount,
    memberBytes_digest successorHash l successorHash]
  omega

/-! ## The loop -/

/-- A loop with fuel for the first round that changes nothing ends at a fixed point. -/
theorem settled_fixed {step : Nat → Nat} : ∀ {fuel i n : Nat}, i < fuel →
    step^[i + 1] n = step^[i] n → step (settled step fuel n) = settled step fuel n
  | 0, _, _, hi, _ => absurd hi (Nat.not_lt_zero _)
  | fuel + 1, i, n, hi, h => by
      rw [settled]
      split
      · next hfixed => exact hfixed
      · next hmoves =>
          cases i with
          | zero => exact absurd h hmoves
          | succ i => exact settled_fixed (by omega) h

/-- The loop ends at one of the counts it has passed. -/
theorem settled_iterate (step : Nat → Nat) : ∀ fuel n : Nat,
    ∃ i ≤ fuel, settled step fuel n = step^[i] n
  | 0, n => ⟨0, le_rfl, rfl⟩
  | fuel + 1, n => by
      rw [settled]
      split
      · exact ⟨0, by omega, rfl⟩
      · obtain ⟨i, hi, h⟩ := settled_iterate step fuel (step n)
        exact ⟨i + 1, by omega, h⟩

/-- Sixteen more is at most one digit more. -/
theorem log_add_le {n m : Nat} (hn : 1 ≤ n) (h : m ≤ n + 15) :
    Nat.log 10 m ≤ Nat.log 10 n + 1 := by
  rcases Nat.lt_or_ge n 2 with hone | htwo
  · have hsmall : m < 10 ^ 2 := by omega
    have := Nat.log_lt_of_lt_pow' (b := 10) (by omega) hsmall
    omega
  · calc Nat.log 10 m ≤ Nat.log 10 (n * 10) := Nat.log_mono_right (by omega)
      _ = Nat.log 10 n + 1 := Nat.log_mul_base (by decide) (by omega)

/-- **A count that prints itself settles in four rounds**: it only grows, and
no two powers of ten lie within the reach of its digits. -/
theorem counts_settle {step : Nat → Nat} {base floor : Nat} (hbase : base ≤ floor)
    (hstep : ∀ n, n < 2 ^ 53 → step n = floor + (Nat.log 10 n + 1))
    (hsafe : ∀ i ≤ 8, step^[i] base < 2 ^ 53) :
    ∃ i < 4, step^[i + 1] base = step^[i] base := by
  have hcount : ∀ i ≤ 8, step^[i + 1] base = floor + (Nat.log 10 (step^[i] base) + 1) := by
    intro i hi
    rw [Function.iterate_succ_apply', hstep _ (hsafe i hi)]
  have hgrow : ∀ i, i ≤ 7 → step^[i] base ≤ step^[i + 1] base := by
    intro i
    induction i with
    | zero => intro _; rw [hcount 0 (by omega)]; exact le_trans hbase (by omega)
    | succ i ih =>
        intro hi
        have hmono := Nat.log_mono_right (b := 10) (ih (by omega))
        have hbefore := hcount i (by omega)
        have hafter := hcount (i + 1) (by omega)
        omega
  have hdigits : Nat.log 10 (step^[2] base) < 16 :=
    Nat.log_lt_of_lt_pow' (by decide) (lt_trans (hsafe 2 (by omega)) (by decide))
  have h₁ : step^[1] base = floor + (Nat.log 10 base + 1) := hcount 0 (by omega)
  have h₂ : step^[2] base = floor + (Nat.log 10 (step^[1] base) + 1) := hcount 1 (by omega)
  have h₃ : step^[3] base = floor + (Nat.log 10 (step^[2] base) + 1) := hcount 2 (by omega)
  have h₄ : step^[4] base = floor + (Nat.log 10 (step^[3] base) + 1) := hcount 3 (by omega)
  have hlow : Nat.log 10 (step^[1] base) ≤ Nat.log 10 (step^[2] base) :=
    Nat.log_mono_right (hgrow 1 (by omega))
  have hhigh : Nat.log 10 (step^[2] base) ≤ Nat.log 10 (step^[3] base) :=
    Nat.log_mono_right (hgrow 2 (by omega))
  have hclose : Nat.log 10 (step^[3] base) ≤ Nat.log 10 (step^[1] base) + 1 :=
    log_add_le (by omega) (by omega)
  rcases Nat.eq_or_lt_of_le hlow with heq | hlt
  · exact ⟨2, by decide, show step^[3] base = step^[2] base by omega⟩
  · exact ⟨3, by decide, show step^[4] base = step^[3] base by omega⟩

variable {value : Members}

/-- With room for sixteen digits, no count leaves the safe integers. -/
theorem exactBytes_safe (hvalue : (value.map Prod.fst).Nodup) {base records : Nat}
    (hroom : base + recordBytes (counted value 0 records) + 15 < 2 ^ 53) :
    ∀ i, (exactBytes value base records)^[i] base < 2 ^ 53 := by
  obtain ⟨envelope, henvelope⟩ := recordBytes_counted hvalue records
  have hzero := henvelope 0 (by decide)
  intro i
  induction i with
  | zero => show base < 2 ^ 53; omega
  | succ i ih =>
      have hdigits : Nat.log 10 ((exactBytes value base records)^[i] base) < 16 :=
        Nat.log_lt_of_lt_pow' (by decide) (lt_trans ih (by decide))
      rw [Function.iterate_succ_apply', exactBytes, henvelope _ ih]
      rw [hzero] at hroom
      omega

/-- The rounds for a value reach a count that the record of that count bears out. -/
theorem exactBytes_settles (hvalue : (value.map Prod.fst).Nodup) {base records : Nat}
    (hsafe : ∀ i ≤ 8, (exactBytes value base records)^[i] base < 2 ^ 53) :
    ∃ i < 8, (exactBytes value base records)^[i + 1] base
      = (exactBytes value base records)^[i] base := by
  obtain ⟨envelope, henvelope⟩ := recordBytes_counted hvalue records
  obtain ⟨i, hi, hfixed⟩ := counts_settle (Nat.le_add_right base envelope)
    (fun n hn => by rw [exactBytes, henvelope n hn, Nat.add_assoc]) hsafe
  exact ⟨i, by omega, hfixed⟩

theorem sealCounted_eq_ok (hvalue : (value.map Prod.fst).Nodup) {base records : Nat}
    (hsafe : ∀ i ≤ 8, (exactBytes value base records)^[i] base < 2 ^ 53) :
    ∃ n, n < 2 ^ 53 ∧ n = base + recordBytes (counted value n records)
      ∧ sealCounted value base records = .ok (n, counted value n records) := by
  obtain ⟨i, hi, hfixed⟩ := exactBytes_settles hvalue hsafe
  have hend := settled_fixed hi hfixed
  obtain ⟨k, hk, hcount⟩ := settled_iterate (exactBytes value base records) 8 base
  refine ⟨settled (exactBytes value base records) 8 base, hcount ▸ hsafe k hk, hend.symm, ?_⟩
  rw [sealCounted]
  exact if_neg fun hne => hne hend

/-! ## Chains of successors -/

/-- The count that a counted successor says. -/
theorem lookup_counted (n records : Nat) :
    lookup bytesField (counted value n records) = some (.num (Number.ofNat n)) := by
  rw [counted, sealSgosControlSuccessor, lookup_define_of_ne (by decide),
    lookup_deleteMember_of_ne (by decide), lookup_define_of_ne (by decide),
    lookup_define_of_ne (by decide), lookup_define_of_ne (by decide),
    lookup_define_self]

/-- A safe count is read back from its successor. -/
theorem safeCounter_counted {n : Nat} (records : Nat) (hn : n < 2 ^ 53) :
    safeCounter (counted value n records) bytesField = .ok n := by
  simp only [safeCounter, lookup_counted, Option.bind_some, safeSize?_ofNat hn]

/-- What is sealed has passed the check behind the loop. -/
theorem of_sealCounted {base records n : Nat} {record : Members}
    (h : sealCounted value base records = .ok (n, record)) :
    record = counted value n records ∧ base + recordBytes record = n := by
  unfold sealCounted at h
  generalize settled (exactBytes value base records) 8 base = bytes at h
  dsimp only at h
  split at h
  · cases h
  · next hexact =>
    obtain ⟨hn, hrecord⟩ := Prod.mk.inj (Except.ok.inj h)
    rw [not_not] at hexact
    rw [← hn, ← hrecord]
    exact ⟨rfl, hexact⟩

/-- **A preparation accounts for its transition**: the successor says the prior
bytes and those of its own indexes, event and record. -/
theorem prepare_eq_ok {reads : Reads} {checks : Admission} {supplied : Option Members}
    {published : Option (List Members)} {t : Transition}
    (h : prepareSgosControlSuccessor reads checks value supplied published = .ok t) :
    ∃ prior, priorInfrastructure reads t.event = .ok prior
      ∧ safeCounter t.successor bytesField = .ok (prior.1 + t.bytes) := by
  obtain ⟨event, -, h⟩ := bind_eq_ok_iff.mp h
  obtain ⟨-, -, h⟩ := bind_eq_ok_iff.mp h
  obtain ⟨prior, hprior, h⟩ := bind_eq_ok_iff.mp h
  obtain ⟨indexes, -, h⟩ := bind_eq_ok_iff.mp h
  obtain ⟨-, -, h⟩ := bind_eq_ok_iff.mp h
  obtain ⟨⟨n, successor⟩, hsealed, h⟩ := bind_eq_ok_iff.mp h
  obtain ⟨_, hsafe, h⟩ := bind_eq_ok_iff.mp h
  obtain ⟨-, -, h⟩ := bind_eq_ok_iff.mp h
  obtain rfl := Except.ok.inj h
  refine ⟨prior, hprior, ?_⟩
  obtain ⟨hsuccessor, hexact⟩ := of_sealCounted hsealed
  dsimp only at hsafe ⊢
  have hcount : n < 2 ^ 53 := Nat.not_le.mp (failIf_eq_ok_iff.mp hsafe)
  rw [show prior.1 + Transition.bytes ⟨indexes, event, successor⟩ = n by
    simp only [Transition.bytes, ← hexact, Nat.add_assoc], hsuccessor]
  exact safeCounter_counted _ hcount

/-- Transitions of one process, the last one first: each was prepared when the
event before it and its successor could be read back. -/
inductive Chain (checks : Admission) : List Transition → Prop
  | first {reads : Reads} {value : Members} {supplied : Option Members}
      {published : Option (List Members)} {t : Transition} :
      prepareSgosControlSuccessor reads checks value supplied published = .ok t →
      lookup priorField t.event = some .null → Chain checks [t]
  | next {reads : Reads} {value : Members} {supplied : Option Members}
      {published : Option (List Members)} {t prior : Transition} {rest : List Transition} :
      Chain checks (prior :: rest) →
      prepareSgosControlSuccessor reads checks value supplied published = .ok t →
      lookup priorField t.event ≠ some .null →
      reads.record (js "sgos-control-event") (lookup priorField t.event) = .ok prior.event →
      reads.successor (lookup (js "beforeProcessSha256") prior.event)
        = .ok (some prior.successor) →
      Chain checks (t :: prior :: rest)

/-- **A chain adds up**: the last successor says the bytes of all transitions. -/
theorem Chain.adds_up {checks : Admission} {t : Transition} {rest : List Transition}
    (h : Chain checks (t :: rest)) :
    safeCounter t.successor bytesField = .ok (((t :: rest).map Transition.bytes).sum) := by
  generalize hall : t :: rest = all at h
  induction h generalizing t rest with
  | first hprepared hfirst =>
      obtain ⟨rfl, rfl⟩ := List.cons.inj hall
      obtain ⟨prior, hprior, hcount⟩ := prepare_eq_ok hprepared
      rw [priorInfrastructure, if_pos hfirst] at hprior
      obtain rfl := Except.ok.inj hprior
      simpa using hcount
  | next hchain hprepared hlater hevent hsuccessor ih =>
      obtain ⟨rfl, rfl⟩ := List.cons.inj hall
      obtain ⟨counters, hprior, hcount⟩ := prepare_eq_ok hprepared
      rw [priorInfrastructure, if_neg hlater] at hprior
      obtain ⟨event, hread, hprior⟩ := bind_eq_ok_iff.mp hprior
      obtain rfl := Except.ok.inj (hevent.symm.trans hread)
      obtain ⟨successor, hread, hprior⟩ := bind_eq_ok_iff.mp hprior
      obtain rfl := Except.ok.inj (hsuccessor.symm.trans hread)
      dsimp only at hprior
      split at hprior
      · cases hprior
      · obtain ⟨bytes, hbytes, hprior⟩ := bind_eq_ok_iff.mp hprior
        obtain ⟨records, -, hprior⟩ := bind_eq_ok_iff.mp hprior
        obtain rfl := Except.ok.inj hprior
        have hsum := Except.ok.inj (hbytes.symm.trans (ih rfl))
        rw [hcount, List.map_cons, List.sum_cons, ← hsum, Nat.add_comm]

/-- **The accounting of control successors converges and adds up.**  While all
counts are safe integers, the loop reaches within its eight rounds a count that
is the base and the size of the record of that count, so the preparation never
gives up there; and in a chain the last successor says the bytes of all
indexes, events and successors. -/
theorem controlSuccessor_accounts :
    (∀ (value : Members) (base records : Nat), (value.map Prod.fst).Nodup →
      (∀ i ≤ 8, (exactBytes value base records)^[i] base < 2 ^ 53) →
      (∃ i < 8, (exactBytes value base records)^[i + 1] base
          = (exactBytes value base records)^[i] base)
        ∧ ∃ n, n < 2 ^ 53 ∧ n = base + recordBytes (counted value n records)
          ∧ lookup bytesField (counted value n records) = some (.num (Number.ofNat n))
          ∧ sealCounted value base records = .ok (n, counted value n records))
    ∧ ∀ (checks : Admission) (t : Transition) (rest : List Transition), Chain checks (t :: rest) →
      safeCounter t.successor bytesField = .ok (((t :: rest).map Transition.bytes).sum) := by
  refine ⟨fun value base records hvalue hsafe => ⟨exactBytes_settles hvalue hsafe, ?_⟩,
    fun checks t rest => Chain.adds_up⟩
  obtain ⟨n, hcount, hn, hsealed⟩ := sealCounted_eq_ok hvalue hsafe
  exact ⟨n, hcount, hn, lookup_counted n records, hsealed⟩

/-- The event that begins a process, with the value of its successor. -/
def firstEvent : Members := [(controlHash, .str (js "first")), (priorField, .null)]

def firstValue : Members := [(controlHash, .str (js "first"))]

/-- A store in which nothing is read. -/
def noReads : Reads := ⟨fun _ _ => .error notConverged, fun _ => .ok none⟩

theorem firstValue_room : recordBytes [] + recordBytes firstEvent
    + recordBytes (counted firstValue 0 3) ≤ 1000 := by
  have hrecord : counted firstValue 0 3
      = [(controlHash, .str (js "first")), (bytesField, .num (Number.ofNat 0)),
          (recordsField, .num (Number.ofNat 3)), (js "schemaVersion", .num (Number.ofNat 1)),
          (js "kind", .str (js "sgos-control-successor")),
          (successorHash, .str (hashWithout [(controlHash, .str (js "first")),
            (bytesField, .num (Number.ofNat 0)), (recordsField, .num (Number.ofNat 3)),
            (js "schemaVersion", .num (Number.ofNat 1)),
            (js "kind", .str (js "sgos-control-successor"))] successorHash))] := by
    rfl
  rw [hrecord, recordBytes_eq, recordBytes_eq, recordBytes_eq]
  simp only [List.map_cons, List.map_nil, List.sum_cons, List.sum_nil, memberBytes_digest]
  decide +kernel

/-- The first transition of a process is sealed, and its successor says its bytes. -/
theorem controlSuccessor_accounts_first :
    ∃ t, Chain (fun _ _ _ => .ok ()) [t]
      ∧ safeCounter t.successor bytesField = .ok t.bytes := by
  have hroom := firstValue_room
  obtain ⟨-, n, hcount, -, -, hsealed⟩ := controlSuccessor_accounts.1 firstValue
    (recordBytes [] + recordBytes firstEvent) 3 (by decide)
    fun i _ => exactBytes_safe (by decide) (by omega) i
  have hprepared : prepareSgosControlSuccessor noReads (fun _ _ _ => .ok ()) firstValue
      (some firstEvent) (some [[]]) = .ok ⟨[[]], firstEvent, counted firstValue n 3⟩ := by
    have hbase : 0 + ([[]].map recordBytes).sum + recordBytes firstEvent
        = recordBytes [] + recordBytes firstEvent := by
      simp only [List.map_cons, List.map_nil, List.sum_cons, List.sum_nil]
      omega
    refine bind_eq_ok_iff.mpr ⟨firstEvent, rfl, bind_eq_ok_iff.mpr ⟨(), rfl,
      bind_eq_ok_iff.mpr ⟨(0, 0), rfl, bind_eq_ok_iff.mpr ⟨[[]], rfl,
      bind_eq_ok_iff.mpr ⟨(), rfl, bind_eq_ok_iff.mpr ⟨(n, counted firstValue n 3), ?_,
      bind_eq_ok_iff.mpr ⟨(), failIf_eq_ok_iff.mpr (Nat.not_le.mpr hcount), rfl⟩⟩⟩⟩⟩⟩⟩
    rw [hbase]
    exact hsealed
  have hchain := Chain.first hprepared rfl
  exact ⟨_, hchain, by simpa using controlSuccessor_accounts.2 _ _ _ hchain⟩

end Sgos

end SingularityFlow
