/-
# The owner record of a file lease, and when the lease is stale

`acquireFileLease` keeps one JSON record in the lease file.  `cacheOwner` reads
it back with every check of the source; `cacheFileLeaseState` judges a lease by
what it finds: a record, one of the older contents, or neither.  What a reader
cannot see in the file is a field of `Reader`: which processes are dead, the age
of the file, whether a text is a date.

Only the older contents are judged by age, and an empty file is one of them.  A
file that begins with a written record is never taken for one, whatever stands
behind the record (`reapable_of_stale`).
-/
import SingularityFlow.Lib.Coercion
import SingularityFlow.Lib.JsonRoundTrip
import SingularityFlow.Lib.Utf8

namespace SingularityFlow

open Ecma Value

namespace Leases

/-! ## The record -/

/-- `Number.isSafeInteger(pid) && pid >= 1`. -/
def isPid (x : Number) : Bool := x.safeSize?.any (1 ≤ ·)

/-- A process. -/
abbrev Pid := { x : Number // isPid x = true }

structure CacheOwner where
  pid : Pid
  host : Text
  nonce : Text
  createdAt : Text
  heartbeatAt : Text
  quarantine : Option Bool
  childPids : Option (List Pid)
  unknownChildren : Option Bool

/-- A member that is there when it has a value. -/
def optional (name : Text) (v : Option Value) : List (Text × Value) := (v.map (name, ·)).toList

def CacheOwner.members (owner : CacheOwner) : List (Text × Value) :=
  [ (js "version", .num (.ofNat 2)), (js "pid", .num owner.pid.1), (js "host", .str owner.host),
    (js "nonce", .str owner.nonce), (js "createdAt", .str owner.createdAt),
    (js "heartbeatAt", .str owner.heartbeatAt) ]
    ++ optional (js "quarantine") (owner.quarantine.map .bool)
    ++ optional (js "childPids") (owner.childPids.map fun l => .arr (l.map fun p => .num p.1))
    ++ optional (js "unknownChildren") (owner.unknownChildren.map .bool)

/-- What `writeOwner` writes. -/
def CacheOwner.text (owner : CacheOwner) : Text := stringify [] (.obj owner.members) ++ js "\n"

def CacheOwner.bytes (owner : CacheOwner) : Bytes := textEncode owner.text

/-! ## Reading it back -/

def pid? : Value → Option Pid
  | .num x => if h : isPid x = true then some ⟨x, h⟩ else none
  | _ => none

/-- A flag that may be missing. -/
def flag? : Option Value → Option (Option Bool)
  | none => some none
  | some (.bool b) => some (some b)
  | _ => none

def pids? : Option Value → Option (Option (List Pid))
  | none => some none
  | some (.arr items) =>
      if 128 < items.length then none
      else (items.mapM pid?).bind fun pids => if pids.Nodup then some (some pids) else none
  | _ => none

/-- `/[\u0000-\u001f\u007f]/`. -/
def isControl (u : UInt16) : Bool := u.toNat < 0x20 || u.toNat = 0x7F

def host? : Option Value → Option Text
  | some (.str t) => if 1 ≤ t.length ∧ t.length ≤ 256 ∧ !t.any isControl then some t else none
  | _ => none

/-- `/^[a-f0-9-]{36}$/`. -/
def isNonce (t : Text) : Bool :=
  t.length = 36 && t.all fun u =>
    (0x61 ≤ u.toNat && u.toNat ≤ 0x66) || (0x30 ≤ u.toNat && u.toNat ≤ 0x39) || u = 0x2D

def nonce? (v : Option Value) : Option Text :=
  let t := (orElse v (.str [])).toText
  if isNonce t then some t else none

def ownerKeys : List Text :=
  [js "version", js "pid", js "host", js "nonce", js "createdAt", js "heartbeatAt",
    js "quarantine", js "childPids", js "unknownChildren"]

/-- What a reader of a lease finds out besides the content of the file. -/
structure Reader where
  /-- `os.hostname()`. -/
  hostname : Text
  /-- `processDeath`. -/
  dead : Pid → Bool
  /-- `Number.isFinite(Date.parse(value))`. -/
  validDate : Option Value → Bool
  ageMs : Int
  staleMs : Int
  legacyQuarantine : Bool
  /-- The pathname is no regular file of this user with one link, or it changed
  while it was read. -/
  changed : Bool

/-- The checks of `cacheOwner` on a parsed record. -/
def ownerOf (reader : Reader) (members : List (Text × Value)) : Option CacheOwner := do
  let get := fun name => lookup name members
  if members.all (fun p => p.1 ∈ ownerKeys) && get (js "version") = some (.num (.ofNat 2))
      && reader.validDate (get (js "createdAt")) && reader.validDate (get (js "heartbeatAt")) then
    let pid ← (get (js "pid")).bind pid?
    let host ← host? (get (js "host"))
    let nonce ← nonce? (get (js "nonce"))
    let quarantine ← flag? (get (js "quarantine"))
    let unknownChildren ← flag? (get (js "unknownChildren"))
    let childPids ← pids? (get (js "childPids"))
    return {
      pid, host, nonce, quarantine, childPids, unknownChildren
      createdAt := templateText (get (js "createdAt"))
      heartbeatAt := templateText (get (js "heartbeatAt")) }
  else none

def cacheOwner (reader : Reader) (text : Text) : Option CacheOwner :=
  match parse text with
  | some (.obj members) => ownerOf reader members
  | _ => none

/-! ## The judgement -/

inductive Reason where
  | unverifiable | foreignOwner | liveOwner | unknownChildren | liveChild
  | deadQuarantine | deadOwner | legacyStale | legacyBusy
deriving DecidableEq

structure LeaseState where
  stale : Bool
  reason : Reason

def leaseBytes : Nat := 4096

/-- The judgement of a lease with a record. -/
def ownerState (reader : Reader) (owner : CacheOwner) : LeaseState :=
  if owner.host ≠ reader.hostname then ⟨false, .foreignOwner⟩
  else if !reader.dead owner.pid then ⟨false, .liveOwner⟩
  else if owner.unknownChildren = some true
      || (owner.quarantine = some true && owner.unknownChildren ≠ some false) then
    ⟨false, .unknownChildren⟩
  else if (owner.childPids.getD []).any fun p => !reader.dead p then ⟨false, .liveChild⟩
  else ⟨true, if owner.quarantine = some true then .deadQuarantine else .deadOwner⟩

/-- The judgement of a lease without one: only an older acquisition, which is a
nonce or nothing at all, is judged by its age. -/
def legacyState (reader : Reader) (text : Text) : LeaseState :=
  let legacy := isNonce (trim text) || trim text = []
  if legacy && !reader.legacyQuarantine then
    if reader.ageMs > reader.staleMs then ⟨true, .legacyStale⟩ else ⟨false, .legacyBusy⟩
  else if reader.legacyQuarantine then ⟨false, .unknownChildren⟩
  else ⟨false, .unverifiable⟩

/-- `cacheFileLeaseState` of a file that is there; octets that are no text are
an error. -/
def cacheFileLeaseState (reader : Reader) (content : Bytes) : Except Unit LeaseState :=
  if reader.changed || content.length > leaseBytes then .ok ⟨false, .unverifiable⟩
  else
    match decodeFatal content with
    | none => .error ()
    | some text =>
        match cacheOwner reader text with
        | some owner => .ok (ownerState reader owner)
        | none => .ok (legacyState reader text)

/-! ## A written record -/

theorem numberSpelled_of_isPid {x : Number} (h : isPid x = true) : Value.NumberSpelled (.num x) := by
  obtain ⟨n, hn, hpos⟩ := (Option.any_eq_true _ _).mp h
  have hint := integer?_of_safeSize? hn
  cases x with
  | nan => cases hint
  | infinity => cases hint
  | finite negative m e hc =>
      refine ⟨rfl, ?_⟩
      cases negative with
      | false => rfl
      | true =>
          have := integer?_negative hint
          have := of_decide_eq_true hpos
          omega

section Written

variable (owner : CacheOwner)

theorem optional_names (name : Text) (v : Option Value) :
    ((optional name v).map Prod.fst).Sublist [name] := by
  cases v with
  | none => exact List.nil_sublist _
  | some => exact List.Sublist.refl _

theorem members_names : (owner.members.map Prod.fst).Sublist ownerKeys := by
  simp only [CacheOwner.members, List.map_append]
  exact (((List.Sublist.refl _).append (optional_names _ _)).append (optional_names _ _)).append
    (optional_names _ _)

theorem mem_optional {name : Text} {v : Option Value} {p : Text × Value} (h : p ∈ optional name v) :
    v = some p.2 := by
  cases v with
  | none => cases h
  | some v => rw [List.mem_singleton.mp h]

/-- The values of a record hold nothing but texts, flags and processes. -/
theorem members_values {p : Text × Value} (h : p ∈ owner.members) :
    p.2 = .num (.ofNat 2) ∨ (∃ pid : Pid, p.2 = .num pid.1) ∨ (∃ t, p.2 = .str t) ∨ (∃ b, p.2 = .bool b)
      ∨ ∃ l : List Pid, p.2 = .arr (l.map fun p => .num p.1) := by
  simp only [CacheOwner.members, List.mem_append, List.mem_cons, List.not_mem_nil, or_false] at h
  rcases h with ((h | h) | h) | h
  · rcases h with rfl | rfl | rfl | rfl | rfl | rfl
    · exact .inl rfl
    · exact .inr (.inl ⟨_, rfl⟩)
    all_goals exact .inr (.inr (.inl ⟨_, rfl⟩))
  · obtain ⟨b, -, hb⟩ := Option.map_eq_some_iff.mp (mem_optional h)
    exact .inr (.inr (.inr (.inl ⟨b, hb.symm⟩)))
  · obtain ⟨l, -, hl⟩ := Option.map_eq_some_iff.mp (mem_optional h)
    exact .inr (.inr (.inr (.inr ⟨l, hl.symm⟩)))
  · obtain ⟨b, -, hb⟩ := Option.map_eq_some_iff.mp (mem_optional h)
    exact .inr (.inr (.inr (.inl ⟨b, hb.symm⟩)))

theorem ownerKeys_nodup : ownerKeys.Nodup := by decide

theorem ownerKeys_noIndex : ∀ name ∈ ownerKeys, arrayIndex? name = none := by decide

theorem members_everywhere {P : Value → Prop} (hversion : P (.num (.ofNat 2)))
    (hpid : ∀ pid : Pid, P (.num pid.1)) (htext : ∀ t, P (.str t)) (hflag : ∀ b, P (.bool b))
    (hpids : ∀ l : List Pid, P (.arr (l.map fun p => .num p.1))) :
    ∀ p ∈ owner.members, Everywhere P p.2 := by
  intro p hp
  rcases members_values owner hp with h | ⟨pid, h⟩ | ⟨t, h⟩ | ⟨b, h⟩ | ⟨l, h⟩ <;> rw [h]
  · exact (everywhere_leaf rfl).mpr hversion
  · exact (everywhere_leaf rfl).mpr (hpid pid)
  · exact (everywhere_leaf rfl).mpr (htext t)
  · exact (everywhere_leaf rfl).mpr (hflag b)
  · refine everywhere_arr.mpr ⟨hpids l, fun v hv => ?_⟩
    obtain ⟨pid, -, rfl⟩ := List.mem_map.mp hv
    exact (everywhere_leaf rfl).mpr (hpid pid)

theorem record_proper : (Value.obj owner.members).Proper :=
  everywhere_obj.mpr ⟨(members_names owner).nodup ownerKeys_nodup,
    members_everywhere owner trivial (fun _ => trivial) (fun _ => trivial) (fun _ => trivial)
      fun _ => trivial⟩

theorem record_spelled : Everywhere NumberSpelled (Value.obj owner.members) :=
  everywhere_obj.mpr ⟨trivial, members_everywhere owner (by unfold NumberSpelled; decide +kernel)
    (fun pid => numberSpelled_of_isPid pid.2) (fun _ => trivial) (fun _ => trivial)
      fun _ => trivial⟩

theorem record_ordered : ordered (.obj owner.members) = .obj owner.members := by
  have hvalues : ∀ p ∈ owner.members, ordered p.2 = p.2 := by
    intro p hp
    rcases members_values owner hp with h | ⟨pid, h⟩ | ⟨t, h⟩ | ⟨b, h⟩ | ⟨l, h⟩ <;> rw [h]
    all_goals try rfl
    rw [ordered, orderedItems_eq, List.map_map]
    rfl
  have hmembers : orderedMembers owner.members = owner.members := by
    rw [orderedMembers_eq]
    conv => rhs; rw [← List.map_id owner.members]
    exact List.map_congr_left fun p hp => Prod.ext rfl (hvalues p hp)
  rw [ordered, hmembers, propertyOrder_eq_self]
  intro p hp
  exact ownerKeys_noIndex p.1 ((members_names owner).subset (List.mem_map_of_mem hp))

/-- Only the record itself is read from a text that begins with it. -/
theorem parse_text_append {rest : Text} {v : Value} (h : parse (owner.text ++ rest) = some v) :
    v = .obj owner.members := by
  rw [CacheOwner.text, stringify, record_ordered, List.append_assoc] at h
  have hend : NumberEnd (js "\n" ++ rest) := ⟨by decide, by decide, by decide, by decide⟩
  exact parse_render_append (by simp) (record_proper owner) (record_spelled owner) hend h

theorem lookup_required :
    lookup (js "pid") owner.members = some (.num owner.pid.1)
      ∧ lookup (js "host") owner.members = some (.str owner.host)
      ∧ lookup (js "nonce") owner.members = some (.str owner.nonce)
      ∧ lookup (js "createdAt") owner.members = some (.str owner.createdAt)
      ∧ lookup (js "heartbeatAt") owner.members = some (.str owner.heartbeatAt) :=
  ⟨rfl, rfl, rfl, rfl, rfl⟩

theorem lookup_optional :
    lookup (js "quarantine") owner.members = owner.quarantine.map .bool
      ∧ lookup (js "childPids") owner.members
        = owner.childPids.map (fun l => .arr (l.map fun p => .num p.1))
      ∧ lookup (js "unknownChildren") owner.members = owner.unknownChildren.map .bool := by
  obtain ⟨pid, host, nonce, createdAt, heartbeatAt, quarantine, childPids, unknownChildren⟩ := owner
  cases quarantine <;> cases childPids <;> cases unknownChildren <;> exact ⟨rfl, rfl, rfl⟩

theorem pid?_num (pid : Pid) : pid? (.num pid.1) = some pid := by
  rw [pid?, dif_pos pid.2]

theorem mapM_pid? (l : List Pid) : (l.map fun p => Value.num p.1).mapM pid? = some l := by
  induction l with
  | nil => rfl
  | cons p l ih => rw [List.map_cons, List.mapM_cons, ih, pid?_num]; rfl

theorem flag?_map (b : Option Bool) : flag? (b.map .bool) = some b := by
  cases b <;> rfl

theorem pids?_map {l : Option (List Pid)} {pids : Option (List Pid)}
    (h : pids? (l.map fun l => .arr (l.map fun p => .num p.1)) = some pids) : pids = l := by
  cases l with
  | none => exact (Option.some.inj h).symm
  | some l =>
      rw [Option.map_some, pids?] at h
      split at h
      · cases h
      · rw [mapM_pid?, Option.bind_some] at h
        split at h
        · exact (Option.some.inj h).symm
        · cases h

/-- A written record is read back, or it fails a check. -/
theorem ownerOf_members {reader : Reader} {owner' : CacheOwner}
    (h : ownerOf reader owner.members = some owner') : owner' = owner := by
  obtain ⟨hpid, hhost, hnonce, hcreated, hheartbeat⟩ := lookup_required owner
  obtain ⟨hquarantine, hchildren, hunknown⟩ := lookup_optional owner
  unfold ownerOf at h
  dsimp only at h
  split at h
  · rw [hpid, hhost, hnonce, hcreated, hheartbeat, hquarantine, hchildren, hunknown,
      Option.bind_some, pid?_num, flag?_map, flag?_map] at h
    obtain ⟨pid, hp, h⟩ := Option.bind_eq_some_iff.mp h
    obtain rfl := Option.some.inj hp
    obtain ⟨host, hh, h⟩ := Option.bind_eq_some_iff.mp h
    obtain ⟨nonce, hn, h⟩ := Option.bind_eq_some_iff.mp h
    obtain ⟨quarantine, hq, h⟩ := Option.bind_eq_some_iff.mp h
    obtain rfl := Option.some.inj hq
    obtain ⟨unknown, hu, h⟩ := Option.bind_eq_some_iff.mp h
    obtain rfl := Option.some.inj hu
    obtain ⟨children, hc, h⟩ := Option.bind_eq_some_iff.mp h
    obtain rfl := pids?_map hc
    have hhost' : host = owner.host := by
      rw [host?] at hh
      split at hh
      · exact (Option.some.inj hh).symm
      · cases hh
    have hnonce' : nonce = owner.nonce := by
      rw [nonce?] at hn
      split at hn
      · exact (Option.some.inj hn).symm
      · cases hn
    rw [← Option.some.inj h, hhost', hnonce']
    rfl
  · cases h

theorem text_head : ∃ rest, owner.text = 0x7B :: rest := by
  rw [CacheOwner.text, stringify, record_ordered, render, bracket_no_gap]
  exact ⟨_, rfl⟩

theorem text_wellFormed : WellFormed owner.text := by
  rw [CacheOwner.text, stringify]
  exact (render_wellFormed (by simp) (by simp) _).append (by decide)

end Written

/-- A lease with this record may be taken over. -/
structure Reapable (reader : Reader) (owner : CacheOwner) : Prop where
  host : owner.host = reader.hostname
  dead : reader.dead owner.pid = true
  known : owner.quarantine = some true → owner.unknownChildren = some false
  children : ∀ p ∈ owner.childPids.getD [], reader.dead p = true

theorem reapable_of_ownerState {reader : Reader} {owner : CacheOwner}
    (h : (ownerState reader owner).stale = true) : Reapable reader owner := by
  unfold ownerState at h
  split at h
  · cases h
  · next hhost =>
      split at h
      · cases h
      · next hdead =>
          split at h
          · cases h
          · next hunknown =>
              split at h
              · cases h
              · next hchildren =>
                  refine ⟨not_not.mp hhost, by simpa using hdead, fun hq => ?_, fun p hp => ?_⟩
                  · simp only [hq, Bool.or_eq_true, not_or, Bool.and_eq_true, decide_eq_true_eq,
                      true_and, not_not] at hunknown
                    exact hunknown.2
                  · simpa using fun hlive => hchildren (List.any_eq_true.mpr ⟨p, hp, hlive⟩)

/-- What begins as a record does is no older content. -/
theorem legacyState_text_append (reader : Reader) (owner : CacheOwner) (rest : Text) :
    (legacyState reader (owner.text ++ rest)).stale = false := by
  obtain ⟨t, ht⟩ := text_head owner
  obtain ⟨t', ht'⟩ := trim_cons (u := 0x7B) rfl (t ++ rest)
  rw [← List.cons_append, ← ht] at ht'
  have hnonce : isNonce (0x7B :: t') = false := by
    simp [isNonce]
  unfold legacyState
  rw [ht', hnonce]
  cases reader.legacyQuarantine <;> rfl

/-- **A file that begins with a record is stale only as the record says.** -/
theorem reapable_of_stale {reader : Reader} {owner : CacheOwner} {tail : Bytes} {state : LeaseState}
    (h : cacheFileLeaseState reader (owner.bytes ++ tail) = .ok state) (hstale : state.stale = true) :
    Reapable reader owner := by
  have hbom : hasBom (owner.bytes ++ tail) = false := by
    obtain ⟨t, ht⟩ := text_head owner
    have hbrace : (0x7B :: t : Text) = unitsOfScalar '{' ++ t := rfl
    have hencoded : String.utf8EncodeChar '{' = [0x7B] := by decide
    rw [CacheOwner.bytes, textEncode, ht, hbrace, scalars_unitsOfScalar_append, utf8Encode_cons,
      hencoded, List.append_assoc]
    simp [hasBom, bom, List.isPrefixOf]
  unfold cacheFileLeaseState at h
  split at h
  · cases h
    cases hstale
  · split at h
    · cases h
    · next text htext =>
        obtain ⟨rest, rfl⟩ := decodeFatal_append (text_wellFormed owner) hbom htext
        split at h
        · next owner' howner =>
            unfold cacheOwner at howner
            split at howner
            · next members hmembers =>
                cases parse_text_append owner hmembers
                rw [ownerOf_members owner howner] at h
                rw [← Except.ok.inj h] at hstale
                exact reapable_of_ownerState hstale
            · cases howner
        · rw [← Except.ok.inj h, legacyState_text_append] at hstale
          cases hstale

end Leases

end SingularityFlow
