/-
# Verifying a ledger

`verifyLedger` reads the entry files, walks the chain from the head and looks
at the idempotency files, in loops of their own.  What the chain part accepts
is one acyclic chain of as many entries as the head says, and every entry
file is named by the hash of its content (`verifyLedger_chain`,
`verifyLedger_named`).

The two index loops are existence tests: each index names some entry, and
each entry has some index.  So an index may name the entry of another event.
`verifyLedger_consistent_iff` says exactly when it does not.  The pins of the
source commits, which the same function checks against Git, are left out.
-/
import SingularityFlow.Ledger.Records

namespace SingularityFlow

open Ecma Ecma.Value

namespace Ledger

/-! ## The verification -/

/-- What `ledgerRefSnapshot` reads from a ref: the head file, and the files
under the two prefixes by path. -/
structure Snapshot where
  head : Text
  entries : List (Text × Text)
  idempotency : List (Text × Text)

/-- The errors and the warnings of a verification. -/
structure Verification where
  errors : List Text
  warnings : List Text
deriving DecidableEq

/-- The loop over the entry files.  The map keeps the place of a key that is
set again, as `define` does. -/
def readEntries : List (Text × Text) → List (Text × Value) → List Text →
    Except Failure (List (Text × Value) × List Text)
  | [], entries, errors => .ok (entries, errors)
  | (file, contents) :: rest, entries, errors =>
      if !isJsonFile file then readEntries rest entries errors
      else
        match readRecord contents with
        | .error e => .error e
        | .ok entry =>
            let actual := entryHash entry
            let mismatch := if actual ≠ jsonBasename file then [js "Entry hash mismatch: " ++ file] else []
            let duplicate :=
              if actual ∈ entries.map Prod.fst then [js "Duplicate entry hash: " ++ actual] else []
            readEntries rest (define entries actual entry) (errors ++ mismatch ++ duplicate)

/-- The state in which the walk of the chain ends. -/
structure Walk where
  errors : List Text
  count : Nat
  /-- `visited.size`. -/
  visited : Nat

/-- The walk from the head; `visited` holds the hashes met so far, the last
first.  Only a string can be the key of an entry. -/
def walk (entries : List (Text × Value)) : Nat → Option Value → Nat → List Text → Walk
  | 0, _, count, visited => ⟨[], count, visited.length⟩
  | fuel + 1, cursor, count, visited =>
      match cursor with
      | none => ⟨[], count, visited.length⟩
      | some c =>
          if !c.truthy then ⟨[], count, visited.length⟩
          else
            match c with
            | .str hash =>
                if hash ∈ visited then
                  ⟨[js "Ledger chain contains a cycle at " ++ hash ++ js "."], count, visited.length⟩
                else
                  match lookup hash entries with
                  | none =>
                      ⟨[js "Ledger head references missing entry " ++ hash ++ js "."], count,
                        visited.length + 1⟩
                  | some entry =>
                      walk entries fuel (entry.member? (js "parentEntryHash")) (count + 1)
                        (hash :: visited)
            | c =>
                ⟨[js "Ledger head references missing entry " ++ c.toText ++ js "."], count,
                  visited.length + 1⟩

/-- `entries.has(key)`. -/
def hasEntry (entries : List (Text × Value)) : Option Value → Bool
  | some (.str hash) => hash ∈ entries.map Prod.fst
  | _ => false

/-- The loop over the idempotency files. -/
def indexErrors (entries : List (Text × Value)) : List (Text × Text) → Except Failure (List Text)
  | [] => .ok []
  | (file, contents) :: rest =>
      if !isJsonFile file then indexErrors entries rest
      else do
        let index ← readRecord contents
        let errors ← indexErrors entries rest
        let named := index.member? (js "entryHash")
        return (if hasEntry entries named then []
          else [js "Idempotency index " ++ templateText (index.member? (js "eventId"))
            ++ js " references missing entry " ++ templateText named ++ js "."]) ++ errors

/-- `value === text`. -/
def isText (v : Option Value) (text : Text) : Bool :=
  match v with
  | some (.str t) => t = text
  | _ => false

/-- The idempotency key that the entry has by its content. -/
def entryKey (entry : Value) : Except Failure IdempotencyKey :=
  ledgerIdempotencyKey entry (optionalProperty (entry.member? (js "transport")) (js "publishedCommit"))

/-- The loop over the entries, without the pins. -/
def entryErrors (idempotency : List (Text × Text)) : List (Text × Value) → Except Failure (List Text)
  | [] => .ok []
  | (hash, entry) :: rest => do
      let expected ← entryKey entry
      let errors ← entryErrors idempotency rest
      return (if isText (entry.member? (js "idempotencyKey")) expected.value then []
          else [js "Entry " ++ hash ++ js " has an invalid idempotency key."])
        ++ (if idempotencyPath expected.hash ∈ idempotency.map Prod.fst then []
          else [js "Entry " ++ hash ++ js " is missing its idempotency index."])
        ++ errors

/-- `Number(head.sequence)`. -/
def headSequence (head : Value) : Number := ((head.member? (js "sequence")).map toNumber).getD .nan

/-- `verifyLedger`, its chain and index part. -/
def verifyLedger (s : Snapshot) : Except Failure Verification := do
  let head ← readRecord s.head
  let (entries, fileErrors) ← readEntries s.entries [] []
  let chain := walk entries (entries.length + 1) (head.member? (js "entryHash")) 0 []
  let sequenceErrors :=
    if (Number.ofNat chain.count).same (headSequence head) then []
    else [js "Ledger sequence is " ++ templateText (head.member? (js "sequence"))
      ++ js ", but the reachable chain contains " ++ natText chain.count ++ js " entries."]
  let unreferenced : Int := (entries.length : Int) - chain.visited
  let warnings :=
    if unreferenced = 0 then []
    else [(Number.ofInt unreferenced).text ++ js " unreferenced ledger entr"
      ++ (if unreferenced = 1 then js "y" else js "ies") ++ js " exist."]
  let indexes ← indexErrors entries s.idempotency
  let keys ← entryErrors s.idempotency entries
  return ⟨fileErrors ++ chain.errors ++ sequenceErrors ++ indexes ++ keys, warnings⟩

/-- `eventAlreadyRecorded`, on the files of a snapshot. -/
def eventAlreadyRecorded (s : Snapshot) (idempotencyHash : Text) : Except Failure (Option Value) :=
  match lookup (idempotencyPath idempotencyHash) s.idempotency with
  | none => .ok none
  | some contents => (readRecord contents).map some

/-! ## What a consistent ledger is -/

/-- An entry file holds the entry of this hash. -/
def Stored (files : List (Text × Text)) (hash : Text) (entry : Value) : Prop :=
  ∃ file contents, (file, contents) ∈ files ∧ isJsonFile file = true
    ∧ readRecord contents = .ok entry ∧ entryHash entry = hash

/-- The entries that parent hashes lead to from a cursor, to the last. -/
inductive Linked (files : List (Text × Text)) : Option Value → List (Text × Value) → Prop
  | none : Linked files none []
  | falsy {c : Value} : c.truthy = false → Linked files (some c) []
  | entry {hash : Text} {e : Value} {rest : List (Text × Value)} : hash ≠ [] → Stored files hash e →
      Linked files (e.member? (js "parentEntryHash")) rest →
      Linked files (some (.str hash)) ((hash, e) :: rest)

/-- The index record names the entry, its event and its key. -/
structure Names (index : Value) (hash : Text) (entry : Value) : Prop where
  hash : index.member? (js "entryHash") = some (.str hash)
  event : index.member? (js "eventId") = entry.member? (js "eventId")
  key : index.member? (js "idempotencyKey") = entry.member? (js "idempotencyKey")

/-- What a valid ledger promises. -/
structure Consistent (s : Snapshot) : Prop where
  /-- One acyclic chain from the head, of as many entries as the head says. -/
  chain : ∃ head entries, readRecord s.head = .ok head
    ∧ Linked s.entries (head.member? (js "entryHash")) entries
    ∧ (entries.map Prod.fst).Nodup
    ∧ (Number.ofNat entries.length).same (headSequence head) = true
  /-- An entry file is named by the hash of what it holds. -/
  named : ∀ file contents, (file, contents) ∈ s.entries → isJsonFile file = true →
    ∃ entry, readRecord contents = .ok entry ∧ jsonBasename file = entryHash entry
  /-- The index under the key of an entry names that entry. -/
  indexed : ∀ hash entry, Stored s.entries hash entry →
    ∃ key index, entryKey entry = .ok key
      ∧ eventAlreadyRecorded s key.hash = .ok (some index) ∧ Names index hash entry
  /-- Looking up the hash of a key answers with an entry of that key. -/
  answers : ∀ value index hash entry, eventAlreadyRecorded s (sha256 value) = .ok (some index) →
    index.member? (js "entryHash") = some (.str hash) → Stored s.entries hash entry →
    ∃ key, entryKey entry = .ok key ∧ key.hash = sha256 value

/-- What the index loops leave unchecked: an index that a hash leads to says
whose it is, and no two entries share a key. -/
structure IndexesAgree (s : Snapshot) : Prop where
  /-- The index is filed under the hash of the key it holds. -/
  filed : ∀ value index, eventAlreadyRecorded s (sha256 value) = .ok (some index) →
    ∃ key, index.member? (js "idempotencyKey") = some (.str key) ∧ sha256 key = sha256 value
  /-- It repeats the event and the key of the entry it names. -/
  repeats : ∀ value index hash entry, eventAlreadyRecorded s (sha256 value) = .ok (some index) →
    index.member? (js "entryHash") = some (.str hash) → Stored s.entries hash entry →
    index.member? (js "eventId") = entry.member? (js "eventId")
      ∧ index.member? (js "idempotencyKey") = entry.member? (js "idempotencyKey")
  /-- Entries with one key are one entry. -/
  unique : ∀ hash entry key hash' entry' key', Stored s.entries hash entry →
    Stored s.entries hash' entry' → entry.member? (js "idempotencyKey") = some (.str key) →
    entry'.member? (js "idempotencyKey") = some (.str key') → sha256 key = sha256 key' →
    hash = hash'

/-! ## The loops -/

theorem lookup_mem {α : Type} {name : Text} {l : List (Text × α)} {v : α}
    (h : lookup name l = some v) : (name, v) ∈ l := by
  obtain ⟨p, hp, rfl⟩ := Option.map_eq_some_iff.mp h
  have hname : p.1 = name := by simpa using List.find?_some hp
  exact hname ▸ List.mem_of_find?_eq_some hp

theorem lookup_isSome {α : Type} {name : Text} {l : List (Text × α)}
    (h : name ∈ l.map Prod.fst) : ∃ v, lookup name l = some v := by
  obtain ⟨p, hp, rfl⟩ := List.mem_map.mp h
  cases hf : l.find? (fun q => q.1 = p.1) with
  | none => exact absurd (List.find?_eq_none.mp hf p hp) (by simp)
  | some q => exact ⟨q.2, by rw [lookup, hf]; rfl⟩

theorem stored_cons {file contents : Text} {files : List (Text × Text)} {hash : Text} {e : Value} :
    Stored ((file, contents) :: files) hash e ↔
      (isJsonFile file = true ∧ readRecord contents = .ok e ∧ entryHash e = hash)
        ∨ Stored files hash e := by
  constructor
  · rintro ⟨f, c, hmem, hjson, hread, hhash⟩
    rcases List.mem_cons.mp hmem with heq | hmem
    · obtain ⟨rfl, rfl⟩ := Prod.mk.inj heq
      exact Or.inl ⟨hjson, hread, hhash⟩
    · exact Or.inr ⟨f, c, hmem, hjson, hread, hhash⟩
  · rintro (⟨hjson, hread, hhash⟩ | ⟨f, c, hmem, hrest⟩)
    · exact ⟨file, contents, List.mem_cons_self, hjson, hread, hhash⟩
    · exact ⟨f, c, List.mem_cons_of_mem _ hmem, hrest⟩

/-- What the loop over the entry files leaves behind when it reports nothing. -/
theorem readEntries_silent {files : List (Text × Text)} {entries entries' : List (Text × Value)}
    {errors : List Text} (h : readEntries files entries errors = .ok (entries', [])) :
    errors = []
      ∧ ((entries.map Prod.fst).Nodup → (entries'.map Prod.fst).Nodup)
      ∧ (∀ hash e, (hash, e) ∈ entries' ↔ (hash, e) ∈ entries ∨ Stored files hash e)
      ∧ ∀ file contents, (file, contents) ∈ files → isJsonFile file = true →
          ∃ e, readRecord contents = .ok e ∧ jsonBasename file = entryHash e := by
  induction files generalizing entries errors with
  | nil =>
      obtain ⟨rfl, rfl⟩ := Prod.mk.inj (Except.ok.inj h)
      refine ⟨rfl, id, fun hash e => ?_, fun _ _ hmem => absurd hmem List.not_mem_nil⟩
      refine ⟨Or.inl, ?_⟩
      rintro (hmem | ⟨f, c, hmem, -⟩)
      · exact hmem
      · exact absurd hmem List.not_mem_nil
  | cons p files ih =>
      obtain ⟨file, contents⟩ := p
      rw [readEntries] at h
      split at h
      · next hjson =>
        -- a file of another kind is passed over
        have hjson : ¬ isJsonFile file = true := by simpa using hjson
        obtain ⟨herrors, hnodup, hmem, hnamed⟩ := ih h
        refine ⟨herrors, hnodup, fun hash e => ?_, fun f c hin hf => ?_⟩
        · rw [hmem, stored_cons]
          refine or_congr_right ⟨Or.inr, ?_⟩
          rintro (⟨hj, -⟩ | hs)
          · exact absurd hj hjson
          · exact hs
        · rcases List.mem_cons.mp hin with heq | hin
          · obtain ⟨rfl, rfl⟩ := Prod.mk.inj heq
            exact absurd hf hjson
          · exact hnamed f c hin hf
      · next hjson =>
        have hjson : isJsonFile file = true := by simpa using hjson
        split at h
        · cases h
        · next entry hread =>
          obtain ⟨hall, hnodup, hmem, hnamed⟩ := ih h
          rw [List.append_eq_nil_iff, List.append_eq_nil_iff] at hall
          obtain ⟨⟨herrors, hmismatch⟩, hduplicate⟩ := hall
          have hname : entryHash entry = jsonBasename file := by
            by_contra hne
            rw [if_pos hne] at hmismatch
            cases hmismatch
          have hnew : entryHash entry ∉ entries.map Prod.fst := by
            intro hin
            rw [if_pos hin] at hduplicate
            cases hduplicate
          rw [define, if_neg hnew] at hnodup hmem
          refine ⟨herrors, fun hn => hnodup ?_, fun hash e => ?_, fun f c hin hf => ?_⟩
          · rw [List.map_append, List.nodup_append]
            refine ⟨hn, by simp, fun a ha b hb => ?_⟩
            rintro rfl
            simp only [List.map_cons, List.map_nil, List.mem_singleton] at hb
            exact hnew (hb ▸ ha)
          · rw [hmem, stored_cons, List.mem_append, List.mem_singleton, or_assoc]
            refine or_congr_right (or_congr_left ?_)
            constructor
            · intro heq
              obtain ⟨rfl, rfl⟩ := Prod.mk.inj heq
              exact ⟨hjson, hread, rfl⟩
            · rintro ⟨-, hread', rfl⟩
              rw [Except.ok.inj (hread.symm.trans hread')]
          · rcases List.mem_cons.mp hin with heq | hin
            · obtain ⟨rfl, rfl⟩ := Prod.mk.inj heq
              exact ⟨entry, hread, hname.symm⟩
            · exact hnamed f c hin hf

section Walk

variable {entries : List (Text × Value)} {visited : List Text}

/-- A set of keys of a map is no larger than the map. -/
theorem visited_le (hnodup : visited.Nodup) (hsub : ∀ hash ∈ visited, hash ∈ entries.map Prod.fst) :
    visited.length ≤ entries.length := by
  have h := (List.subperm_of_subset hnodup hsub).length_le
  rwa [List.length_map] at h

/-- A walk that reports nothing went along a chain of entries not met before. -/
theorem walk_silent {files : List (Text × Text)} {fuel : Nat} {cursor : Option Value} {count : Nat}
    (hstored : ∀ hash e, (hash, e) ∈ entries → Stored files hash e) (hnodup : visited.Nodup)
    (hsub : ∀ hash ∈ visited, hash ∈ entries.map Prod.fst)
    (hfuel : entries.length < fuel + visited.length)
    (h : (walk entries fuel cursor count visited).errors = []) :
    ∃ chain, Linked files cursor chain ∧ (chain.map Prod.fst).Nodup
      ∧ (∀ hash ∈ chain.map Prod.fst, hash ∉ visited)
      ∧ (walk entries fuel cursor count visited).count = count + chain.length := by
  induction fuel generalizing cursor count visited with
  | zero =>
      have := visited_le hnodup hsub
      omega
  | succ fuel ih =>
      have hnone : ∀ hash ∈ ([] : List (Text × Value)).map Prod.fst, hash ∉ visited :=
        fun _ hmem => absurd hmem List.not_mem_nil
      unfold walk at h ⊢
      split at h
      · exact ⟨[], .none, List.nodup_nil, hnone, rfl⟩
      · next c =>
        split at h
        · next htruthy =>
          rw [if_pos htruthy]
          exact ⟨[], .falsy (by simpa using htruthy), List.nodup_nil, hnone, rfl⟩
        · next htruthy =>
          rw [if_neg htruthy]
          split at h
          · next hash =>
            split at h
            · cases h
            · next hnew =>
              rw [if_neg hnew]
              split at h
              · cases h
              · next e he =>
                have hsub' : ∀ other ∈ hash :: visited, other ∈ entries.map Prod.fst := by
                  intro other hother
                  rcases List.mem_cons.mp hother with rfl | hother
                  · exact List.mem_map_of_mem (f := Prod.fst) (lookup_mem he)
                  · exact hsub other hother
                obtain ⟨chain, hlinked, hchain, hfresh, hcount⟩ :=
                  ih (List.nodup_cons.mpr ⟨hnew, hnodup⟩) hsub' (by rw [List.length_cons]; omega) h
                refine ⟨(hash, e) :: chain, .entry ?_ (hstored _ _ (lookup_mem he)) hlinked, ?_, ?_, ?_⟩
                · rintro rfl
                  exact htruthy (by rfl)
                · rw [List.map_cons, List.nodup_cons]
                  exact ⟨fun hin => hfresh _ hin List.mem_cons_self, hchain⟩
                · intro other hother
                  rcases List.mem_cons.mp hother with rfl | hother
                  · exact hnew
                  · exact fun hin => hfresh other hother (List.mem_cons_of_mem _ hin)
                · rw [hcount, List.length_cons]
                  omega
          · cases h

end Walk

/-- No index file that is read names a missing entry. -/
theorem indexErrors_silent {entries : List (Text × Value)} {files : List (Text × Text)}
    (h : indexErrors entries files = .ok []) {file contents : Text} (hmem : (file, contents) ∈ files)
    (hjson : isJsonFile file = true) :
    ∃ index hash, readRecord contents = .ok index
      ∧ index.member? (js "entryHash") = some (.str hash) ∧ hash ∈ entries.map Prod.fst := by
  induction files with
  | nil => exact absurd hmem List.not_mem_nil
  | cons p files ih =>
      obtain ⟨f, c⟩ := p
      rw [indexErrors] at h
      split at h
      · next hother =>
        rcases List.mem_cons.mp hmem with heq | hmem
        · obtain ⟨rfl, rfl⟩ := Prod.mk.inj heq
          rw [hjson] at hother
          cases hother
        · exact ih h hmem
      · obtain ⟨index, hread, h⟩ := bind_eq_ok_iff.mp h
        obtain ⟨errors, hrest, h⟩ := bind_eq_ok_iff.mp h
        obtain ⟨hnamed, rfl⟩ := List.append_eq_nil_iff.mp (Except.ok.inj h)
        rcases List.mem_cons.mp hmem with heq | hmem
        · obtain ⟨rfl, rfl⟩ := Prod.mk.inj heq
          have hhas : hasEntry entries (index.member? (js "entryHash")) = true := by
            by_contra hne
            rw [if_neg hne] at hnamed
            cases hnamed
          unfold hasEntry at hhas
          split at hhas
          · next hash heq => exact ⟨index, hash, hread, heq, of_decide_eq_true hhas⟩
          · cases hhas
        · exact ih hrest hmem

theorem isText_iff {v : Option Value} {text : Text} : isText v text = true ↔ v = some (.str text) := by
  unfold isText
  split
  · simp
  · next h => exact ⟨fun hf => absurd hf (by simp), fun heq => absurd heq (h text)⟩

/-- Each entry holds its own key and has some index. -/
theorem entryErrors_silent {idempotency : List (Text × Text)} {entries : List (Text × Value)}
    (h : entryErrors idempotency entries = .ok []) {hash : Text} {e : Value}
    (hmem : (hash, e) ∈ entries) :
    ∃ key, entryKey e = .ok key ∧ e.member? (js "idempotencyKey") = some (.str key.value)
      ∧ idempotencyPath key.hash ∈ idempotency.map Prod.fst := by
  induction entries with
  | nil => exact absurd hmem List.not_mem_nil
  | cons p entries ih =>
      obtain ⟨hash', e'⟩ := p
      rw [entryErrors] at h
      obtain ⟨key, hkey, h⟩ := bind_eq_ok_iff.mp h
      obtain ⟨errors, hrest, h⟩ := bind_eq_ok_iff.mp h
      obtain ⟨hboth, rfl⟩ := List.append_eq_nil_iff.mp (Except.ok.inj h)
      obtain ⟨hvalue, hindex⟩ := List.append_eq_nil_iff.mp hboth
      rcases List.mem_cons.mp hmem with heq | hmem
      · obtain ⟨rfl, rfl⟩ := Prod.mk.inj heq
        refine ⟨key, hkey, isText_iff.mp ?_, ?_⟩
        · by_contra hne
          rw [if_neg hne] at hvalue
          cases hvalue
        · by_contra hne
          rw [if_neg hne] at hindex
          cases hindex
      · exact ih hrest hmem

/-! ## What a silent verification has seen -/

section Silent

variable {s : Snapshot} {warnings : List Text}

/-- Every part of a verification without errors is without errors. -/
theorem verifyLedger_silent (h : verifyLedger s = .ok ⟨[], warnings⟩) :
    ∃ head entries, readRecord s.head = .ok head ∧ readEntries s.entries [] [] = .ok (entries, [])
      ∧ (walk entries (entries.length + 1) (head.member? (js "entryHash")) 0 []).errors = []
      ∧ (Number.ofNat (walk entries (entries.length + 1) (head.member? (js "entryHash")) 0 []).count).same
          (headSequence head) = true
      ∧ indexErrors entries s.idempotency = .ok [] ∧ entryErrors s.idempotency entries = .ok [] := by
  obtain ⟨head, hhead, h⟩ := bind_eq_ok_iff.mp h
  obtain ⟨⟨entries, fileErrors⟩, hentries, h⟩ := bind_eq_ok_iff.mp h
  obtain ⟨indexes, hindexes, h⟩ := bind_eq_ok_iff.mp h
  obtain ⟨keys, hkeys, h⟩ := bind_eq_ok_iff.mp h
  have hall := (Verification.mk.inj (Except.ok.inj h)).1
  simp only [List.append_eq_nil_iff] at hall
  obtain ⟨⟨⟨⟨rfl, hwalk⟩, hsequence⟩, rfl⟩, rfl⟩ := hall
  refine ⟨head, entries, hhead, hentries, hwalk, ?_, hindexes, hkeys⟩
  by_contra hne
  rw [if_neg hne] at hsequence
  cases hsequence

/-- The map of a silent verification is the set of stored entries, by hash. -/
theorem stored_iff_mem {entries : List (Text × Value)}
    (h : readEntries s.entries [] [] = .ok (entries, [])) {hash : Text} {e : Value} :
    Stored s.entries hash e ↔ (hash, e) ∈ entries := by
  rw [(readEntries_silent h).2.2.1]
  exact ⟨Or.inr, fun hor => hor.resolve_left List.not_mem_nil⟩

/-- **The chain.**  A verification without errors has walked one acyclic
chain, of as many entries as the head says. -/
theorem verifyLedger_chain (h : verifyLedger s = .ok ⟨[], warnings⟩) :
    ∃ head entries, readRecord s.head = .ok head
      ∧ Linked s.entries (head.member? (js "entryHash")) entries
      ∧ (entries.map Prod.fst).Nodup
      ∧ (Number.ofNat entries.length).same (headSequence head) = true := by
  obtain ⟨head, entries, hhead, hentries, hwalk, hsequence, -, -⟩ := verifyLedger_silent h
  have hstored : ∀ hash e, (hash, e) ∈ entries → Stored s.entries hash e :=
    fun _ _ => (stored_iff_mem hentries).mpr
  obtain ⟨chain, hlinked, hnodup, -, hcount⟩ :=
    walk_silent hstored List.nodup_nil (fun _ hmem => absurd hmem List.not_mem_nil) (by simp) hwalk
  rw [hcount, Nat.zero_add] at hsequence
  exact ⟨head, chain, hhead, hlinked, hnodup, hsequence⟩

/-- **The names.**  Every entry file is named by the hash of what it holds. -/
theorem verifyLedger_named (h : verifyLedger s = .ok ⟨[], warnings⟩) {file contents : Text}
    (hmem : (file, contents) ∈ s.entries) (hjson : isJsonFile file = true) :
    ∃ entry, readRecord contents = .ok entry ∧ jsonBasename file = entryHash entry := by
  obtain ⟨-, entries, -, hentries, -⟩ := verifyLedger_silent h
  exact (readEntries_silent hentries).2.2.2 file contents hmem hjson

theorem eventAlreadyRecorded_eq_some {hash : Text} {index : Value} :
    eventAlreadyRecorded s hash = .ok (some index) ↔
      ∃ contents, lookup (idempotencyPath hash) s.idempotency = some contents
        ∧ readRecord contents = .ok index := by
  unfold eventAlreadyRecorded
  cases hl : lookup (idempotencyPath hash) s.idempotency with
  | none => simp
  | some contents => cases hr : readRecord contents <;> simp [Except.map, hr]

/-- An index that a hash leads to names a stored entry. -/
theorem exists_stored_of_recorded (h : verifyLedger s = .ok ⟨[], warnings⟩) {hash : Text}
    {index : Value} (hindex : eventAlreadyRecorded s hash = .ok (some index)) :
    ∃ named entry, index.member? (js "entryHash") = some (.str named)
      ∧ Stored s.entries named entry := by
  obtain ⟨-, entries, -, hentries, -, -, hindexes, -⟩ := verifyLedger_silent h
  obtain ⟨contents, hlookup, hread⟩ := eventAlreadyRecorded_eq_some.mp hindex
  obtain ⟨index', named, hread', hnamed, hin⟩ :=
    indexErrors_silent hindexes (lookup_mem hlookup) (isJsonFile_idempotencyPath hash)
  obtain rfl := Except.ok.inj (hread.symm.trans hread')
  obtain ⟨⟨_, entry⟩, hmem, rfl⟩ := List.mem_map.mp hin
  exact ⟨_, entry, hnamed, (stored_iff_mem hentries).mpr hmem⟩

/-- A stored entry holds its own key, and its key has some index. -/
theorem exists_recorded_of_stored (h : verifyLedger s = .ok ⟨[], warnings⟩) {hash : Text}
    {entry : Value} (hstored : Stored s.entries hash entry) :
    ∃ key index, entryKey entry = .ok key
      ∧ entry.member? (js "idempotencyKey") = some (.str key.value)
      ∧ eventAlreadyRecorded s key.hash = .ok (some index) := by
  obtain ⟨-, entries, -, hentries, -, -, hindexes, hkeys⟩ := verifyLedger_silent h
  obtain ⟨key, hkey, hvalue, hin⟩ := entryErrors_silent hkeys ((stored_iff_mem hentries).mp hstored)
  obtain ⟨contents, hlookup⟩ := lookup_isSome hin
  obtain ⟨index, -, hread, -⟩ :=
    indexErrors_silent hindexes (lookup_mem hlookup) (isJsonFile_idempotencyPath key.hash)
  exact ⟨key, index, hkey, hvalue, eventAlreadyRecorded_eq_some.mpr ⟨contents, hlookup, hread⟩⟩

/-- Entries are told apart by their hashes. -/
theorem stored_functional (h : verifyLedger s = .ok ⟨[], warnings⟩) {hash : Text} {e e' : Value}
    (he : Stored s.entries hash e) (he' : Stored s.entries hash e') : e = e' := by
  obtain ⟨-, entries, -, hentries, -⟩ := verifyLedger_silent h
  have hnodup := (readEntries_silent hentries).2.1 List.nodup_nil
  have heq := eq_of_name_eq hnodup ((stored_iff_mem hentries).mp he)
    ((stored_iff_mem hentries).mp he') rfl
  exact (Prod.mk.inj heq).2

theorem entryKey_hash {entry : Value} {key : IdempotencyKey} (h : entryKey entry = .ok key) :
    key.hash = sha256 key.value :=
  ledgerIdempotencyKey_hash h

theorem indexesAgree_of_consistent (h : verifyLedger s = .ok ⟨[], warnings⟩) (hc : Consistent s) :
    IndexesAgree s := by
  -- the index that a hash leads to is the one of the entry it names
  have hnames : ∀ value index, eventAlreadyRecorded s (sha256 value) = .ok (some index) →
      ∀ hash entry, index.member? (js "entryHash") = some (.str hash) → Stored s.entries hash entry →
      ∃ key, entryKey entry = .ok key ∧ key.hash = sha256 value ∧ Names index hash entry := by
    intro value index hindex hash entry hhash hstored
    obtain ⟨key, hkey, hvalue⟩ := hc.answers value index hash entry hindex hhash hstored
    obtain ⟨key', index', hkey', hindex', hnamed⟩ := hc.indexed hash entry hstored
    obtain rfl := Except.ok.inj (hkey.symm.trans hkey')
    rw [hvalue, hindex] at hindex'
    obtain rfl := Option.some.inj (Except.ok.inj hindex')
    exact ⟨key, hkey, hvalue, hnamed⟩
  refine ⟨fun value index hindex => ?_, fun value index hash entry hindex hhash hstored => ?_,
    fun hash entry key hash' entry' key' hs hs' hk hk' heq => ?_⟩
  · obtain ⟨hash, entry, hhash, hstored⟩ := exists_stored_of_recorded h hindex
    obtain ⟨key, hkey, hvalue, hnamed⟩ := hnames value index hindex hash entry hhash hstored
    obtain ⟨key', -, hkey', hown, -⟩ := exists_recorded_of_stored h hstored
    obtain rfl := Except.ok.inj (hkey.symm.trans hkey')
    exact ⟨key.value, hnamed.key.trans hown, (entryKey_hash hkey).symm.trans hvalue⟩
  · obtain ⟨-, -, -, hnamed⟩ := hnames value index hindex hash entry hhash hstored
    exact ⟨hnamed.event, hnamed.key⟩
  · -- two entries of one key have one index, and it names a single entry
    obtain ⟨k, index, hkey, hindex, hnamed⟩ := hc.indexed hash entry hs
    obtain ⟨k', index', hkey', hindex', hnamed'⟩ := hc.indexed hash' entry' hs'
    obtain ⟨l, -, hl, hown, -⟩ := exists_recorded_of_stored h hs
    obtain ⟨l', -, hl', hown', -⟩ := exists_recorded_of_stored h hs'
    obtain rfl := Except.ok.inj (hkey.symm.trans hl)
    obtain rfl := Except.ok.inj (hkey'.symm.trans hl')
    obtain rfl := Value.str.inj (Option.some.inj (hk.symm.trans hown))
    obtain rfl := Value.str.inj (Option.some.inj (hk'.symm.trans hown'))
    rw [entryKey_hash hkey, heq, ← entryKey_hash hkey', hindex'] at hindex
    obtain rfl := Option.some.inj (Except.ok.inj hindex)
    exact Value.str.inj (Option.some.inj (hnamed.hash.symm.trans hnamed'.hash))

theorem consistent_of_indexesAgree (h : verifyLedger s = .ok ⟨[], warnings⟩) (hi : IndexesAgree s) :
    Consistent s := by
  refine ⟨verifyLedger_chain h, fun file contents => verifyLedger_named h,
    fun hash entry hstored => ?_, fun value index hash entry hindex hhash hstored => ?_⟩
  · obtain ⟨key, index, hkey, hown, hindex⟩ := exists_recorded_of_stored h hstored
    obtain ⟨hash', entry', hhash', hstored'⟩ := exists_stored_of_recorded h hindex
    rw [entryKey_hash hkey] at hindex
    obtain ⟨held, hheld, hfiled⟩ := hi.filed key.value index hindex
    obtain ⟨hevent, hkeys⟩ := hi.repeats key.value index hash' entry' hindex hhash' hstored'
    -- the entry that the index names has the same key, so it is the same entry
    obtain rfl := hi.unique hash entry key.value hash' entry' held hstored hstored' hown
      (hkeys ▸ hheld) hfiled.symm
    obtain rfl := stored_functional h hstored hstored'
    exact ⟨key, index, hkey, by rw [entryKey_hash hkey]; exact hindex, hhash', hevent, hkeys⟩
  · obtain ⟨key, -, hkey, hown, -⟩ := exists_recorded_of_stored h hstored
    obtain ⟨held, hheld, hfiled⟩ := hi.filed value index hindex
    obtain ⟨-, hkeys⟩ := hi.repeats value index hash entry hindex hhash hstored
    obtain rfl := Value.str.inj (Option.some.inj (hown.symm.trans (hkeys ▸ hheld)))
    exact ⟨key, hkey, (entryKey_hash hkey).trans hfiled⟩

/-- **When a verified ledger is consistent.**  The chain and the names always
are; the indexes are when each that a hash leads to is filed under the key it
holds and repeats the entry it names, and no two entries have one key. -/
theorem verifyLedger_consistent_iff (h : verifyLedger s = .ok ⟨[], warnings⟩) :
    Consistent s ↔ IndexesAgree s :=
  ⟨indexesAgree_of_consistent h, consistent_of_indexesAgree h⟩

end Silent

/-! ## A ledger whose indexes are crossed -/

def sampleCommit : Text := List.replicate 40 0x61

def sampleKey (workId : String) : Text :=
  js workId ++ js " · phase-approved · - · - · " ++ sampleCommit

def sampleEntry (eventId workId : String) (parent : Value) : Value :=
  .obj [(js "schemaVersion", .num (.ofNat 1)), (js "eventId", .str (js eventId)),
    (js "eventType", .str (js "phase-approved")),
    (js "subject", .obj [(js "workId", .str (js workId))]),
    (js "idempotencyKey", .str (sampleKey workId)),
    (js "transport", .obj [(js "publishedCommit", .str sampleCommit)]),
    (js "parentEntryHash", parent)]

def firstHash : Text := js "13f3a1dac626ccdfc75bc2e42bbd3cc36a4ff0a5b4fd362e6e2fecb1e6ed4b2a"
def secondHash : Text := js "6d100b2d463de8a2d4cf01ceb81eaa0addd164a2e147d40b08b8579f7684c562"
def firstKeyHash : Text := js "653423ced5e236a480233128dd7d9d83e1271c366106299d5bd2271e73b77ffd"
def secondKeyHash : Text := js "939fcb5af16249c82a2556692894fb7e3795fea446e0f4de3c082acaea7f9d94"

def sampleEntryFile (hash : Text) (entry : Value) : Text × Text :=
  (js "ledger/entries/payments/" ++ hash ++ jsonSuffix, canonicalJson entry)

def firstFile : Text × Text := sampleEntryFile firstHash (sampleEntry "event-1" "WORK-1" .null)

def secondFile : Text × Text :=
  sampleEntryFile secondHash (sampleEntry "event-2" "WORK-2" (.str firstHash))

/-- The index of a work item, with the event and the entry that it names. -/
def sampleIndexFile (keyHash : Text) (workId eventId : String) (named : Text) : Text × Text :=
  (idempotencyPath keyHash, canonicalJson (.obj
    [(js "schemaVersion", .num (.ofNat 1)), (js "eventId", .str (js eventId)),
      (js "idempotencyKey", .str (sampleKey workId)), (js "entryHash", .str named)]))

def sampleHead (sequence : Nat) (hash : Text) : Text :=
  canonicalJson (.obj [(js "schemaVersion", .num (.ofNat 1)),
    (js "sequence", .num (.ofNat sequence)), (js "entryHash", .str hash)])

def singleLedger : Snapshot :=
  ⟨sampleHead 1 firstHash, [firstFile], [sampleIndexFile firstKeyHash "WORK-1" "event-1" firstHash]⟩

theorem verifyLedger_consistent_iff_single : Consistent singleLedger ↔ IndexesAgree singleLedger := by
  have h : verifyLedger singleLedger = .ok ⟨[], []⟩ := by decide +kernel
  exact verifyLedger_consistent_iff h

/-- Two entries; the index of the first names the second. -/
def crossedLedger : Snapshot where
  head := sampleHead 2 secondHash
  entries := [firstFile, secondFile]
  idempotency := [sampleIndexFile firstKeyHash "WORK-1" "event-2" secondHash,
    sampleIndexFile secondKeyHash "WORK-2" "event-2" secondHash]

/-- The index under the key of a stored entry names the hash of its file. -/
def namesItself (s : Snapshot) (file : Text × Text) : Bool :=
  match readRecord file.2 with
  | .error _ => false
  | .ok entry =>
      match entryKey entry with
      | .error _ => false
      | .ok key =>
          match eventAlreadyRecorded s key.hash with
          | .ok (some index) => isText (index.member? (js "entryHash")) (jsonBasename file.1)
          | _ => false

theorem Consistent.namesItself {s : Snapshot} (h : Consistent s) {file : Text × Text}
    (hmem : file ∈ s.entries) (hjson : isJsonFile file.1 = true) :
    Ledger.namesItself s file = true := by
  obtain ⟨entry, hread, hname⟩ := h.named file.1 file.2 hmem hjson
  obtain ⟨key, index, hkey, hindex, hnamed⟩ :=
    h.indexed (entryHash entry) entry ⟨file.1, file.2, hmem, hjson, hread, rfl⟩
  rw [Ledger.namesItself, hread]
  simp only [hkey, hindex]
  exact isText_iff.mpr (hname ▸ hnamed.hash)

/-- The index of the first work item names the entry of the second, and the
verification reports nothing. -/
theorem verifyLedger_crossed :
    verifyLedger crossedLedger = .ok ⟨[], []⟩ ∧ ¬ Consistent crossedLedger := by
  refine ⟨by decide +kernel, fun h => ?_⟩
  have hjson : isJsonFile firstFile.1 = true :=
    List.isSuffixOf_iff_suffix.mpr (List.suffix_append _ _)
  have hself := h.namesItself List.mem_cons_self hjson
  have hcrossed : namesItself crossedLedger firstFile = false := by
    decide +kernel
  rw [hcrossed] at hself
  cases hself

end Ledger

end SingularityFlow
