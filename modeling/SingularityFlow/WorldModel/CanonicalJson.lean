/-
# The content identity of world-model records

`canonicalValue` rebuilds every object by assigning its members, sorted by
name, to a fresh `{}`; `canonicalJson` prints the result.  Assignment creates
a member for every name but one: `output['__proto__'] = x` sets the prototype
of `output`, or does nothing.  So a member of that name, which `JSON.parse`
creates like any other, is not printed.

`canonicalValue_eq` says this once: the rebuilt value is the canonical form
of the value without its `__proto__` members.  What the identity can see
(`canonicalJson_identity`) and what a seal protects
(`assertRecordSha256_add_iff`) follow from it.
-/
import SingularityFlow.Errors
import SingularityFlow.Lib.Sha256
import SingularityFlow.Lib.JsonRoundTrip

namespace SingularityFlow

open Ecma Ecma.Value

namespace WorldModel

/-! ## Property assignment -/

/-- The name whose assignment sets the prototype. -/
def protoName : Text := js "__proto__"

/-- `output[name] = v` on an ordinary object, as far as its own members go. -/
def assign {α : Type} (members : List (Text × α)) (name : Text) (v : α) : List (Text × α) :=
  if name = protoName then members
  else if name ∈ members.map Prod.fst then
    members.map fun p => if p.1 = name then (name, v) else p
  else members ++ [(name, v)]

/-! ## Canonical values -/

mutual

/-- `canonicalValue`; `location` is the path in what is thrown.  An entry of a
JSON value is never undefined and its objects are plain records. -/
def canonicalValue (location : Text) : Value → Except Failure Value
  | .null => .ok .null
  | .str t => .ok (.str t)
  | .bool b => .ok (.bool b)
  | .num x =>
      if x.isFinite then
        .ok (.num (if x = .negativeZero then .finite false 0 (-1074) canonical_zero else x))
      else
        .error (.typeError (js "World-model canonical JSON cannot encode a non-finite number at "
          ++ location ++ js "."))
  | .arr items =>
      match sequence (canonicalItems location 0 items) with
      | .error e => .error e
      | .ok values => .ok (.arr values)
  | .obj members =>
      match sequence
          ((sortMembers (propertyOrder (canonicalEntries location members))).map Prod.snd) with
      | .error e => .error e
      | .ok entries => .ok (.obj (entries.foldl (fun output p => assign output p.1 p.2) []))

def canonicalItems (location : Text) (index : Nat) : List Value → List (Except Failure Value)
  | [] => []
  | v :: rest =>
      canonicalValue (location ++ js "[" ++ natText index ++ js "]") v
        :: canonicalItems location (index + 1) rest

/-- The entries of an object, under their names. -/
def canonicalEntries (location : Text) :
    List (Text × Value) → List (Text × Except Failure (Text × Value))
  | [] => []
  | (key, v) :: rest =>
      (key,
        match canonicalValue (location ++ js "." ++ key) v with
        | .error e => .error e
        | .ok w => .ok (key, w))
        :: canonicalEntries location rest

end

def canonicalize (v : Value) : Except Failure Value := canonicalValue (js "$") v

def canonicalJson (v : Value) : Except Failure Text :=
  match canonicalize v with
  | .error e => .error e
  | .ok c => .ok (stringify (js "  ") c ++ js "\n")

/-- `sha256` of a value that is no buffer. -/
def sha256 (v : Value) : Except Failure Text :=
  match canonicalJson v with
  | .error e => .error e
  | .ok text => .ok (js "sha256:" ++ sha256Hex (textEncode text))

/-! ## Records -/

/-- `Object.fromEntries` creates members, so it keeps a `__proto__` member. -/
def withoutFields (members : List (Text × Value)) (fields : List Text) : List (Text × Value) :=
  (propertyOrder members).filter fun p => p.1 ∉ fields

def recordSha256 (members : List (Text × Value)) (hashField : Text) : Except Failure Text :=
  sha256 (.obj (withoutFields members [hashField]))

/-- `sealRecord`, on the members of a plain record. -/
def sealRecord (members : List (Text × Value)) (hashField : Text) :
    Except Failure (List (Text × Value)) :=
  let record := (propertyOrder members).filter fun p => p.1 ≠ hashField
  match sha256 (.obj record) with
  | .error e => .error e
  | .ok digest => .ok (assign record hashField (.str digest))

/-- `assertRecordSha256`; the record is accepted as it stands. -/
def assertRecordSha256 (members : List (Text × Value)) (hashField label : Text) :
    Except Failure Unit :=
  match recordSha256 members hashField with
  | .error e => .error e
  | .ok expected =>
      match lookup hashField members with
      | some (.str received) =>
          if received = expected then .ok ()
          else .error (.typeError (label ++ js " " ++ hashField
            ++ js " does not match its canonical content."))
      | _ => .error (.typeError (label ++ js " " ++ hashField
            ++ js " does not match its canonical content."))

/-! ## The rebuilt value -/

/-- An object has no member of the given name. -/
def Avoids (name : Text) : Value → Prop
  | .obj members => name ∉ members.map Prod.fst
  | _ => True

instance (name : Text) : DecidablePred (Avoids name)
  | .obj members => inferInstanceAs (Decidable (name ∉ members.map Prod.fst))
  | .null | .bool _ | .num _ | .str _ | .arr _ => isTrue trivial

mutual

/-- The value with the members called `__proto__` removed at every depth. -/
def withoutProto : Value → Value
  | .arr items => .arr (withoutProtoItems items)
  | .obj members => .obj (withoutProtoMembers members)
  | v => v

def withoutProtoItems : List Value → List Value
  | [] => []
  | v :: rest => withoutProto v :: withoutProtoItems rest

def withoutProtoMembers : List (Text × Value) → List (Text × Value)
  | [] => []
  | (key, v) :: rest =>
      if key = protoName then withoutProtoMembers rest
      else (key, withoutProto v) :: withoutProtoMembers rest

end

theorem withoutProtoItems_eq (l : List Value) : withoutProtoItems l = l.map withoutProto := by
  induction l with
  | nil => rfl
  | cons v rest ih => rw [withoutProtoItems, ih, List.map_cons]

theorem withoutProtoMembers_eq (l : List (Text × Value)) :
    withoutProtoMembers l
      = (l.filter fun p => p.1 ≠ protoName).map fun p => (p.1, withoutProto p.2) := by
  induction l with
  | nil => rfl
  | cons p rest ih =>
      obtain ⟨key, v⟩ := p
      by_cases h : key = protoName <;> simp [withoutProtoMembers, h, ih]

/-- Assigning distinct names in turn creates every member but `__proto__`. -/
theorem foldl_assign {l : List (Text × Value)} (h : (l.map Prod.fst).Nodup) :
    l.foldl (fun output p => assign output p.1 p.2) []
      = l.filter fun p => p.1 ≠ protoName := by
  have key : ∀ (l acc : List (Text × Value)), ((acc ++ l).map Prod.fst).Nodup →
      l.foldl (fun output p => assign output p.1 p.2) acc
        = acc ++ l.filter fun p => p.1 ≠ protoName := by
    intro l
    induction l with
    | nil => simp
    | cons p l ih =>
        intro acc hacc
        have hp : p.1 ∉ acc.map Prod.fst := by
          rw [List.map_append, List.map_cons] at hacc
          intro hc
          exact (List.nodup_append.mp hacc).2.2 _ hc _ (List.mem_cons_self ..) rfl
        rw [List.foldl_cons]
        by_cases hproto : p.1 = protoName
        · have hsub : ((acc ++ l).map Prod.fst).Nodup :=
            hacc.sublist (List.Sublist.map _ (List.Sublist.append_left (List.sublist_cons_self ..) _))
          rw [assign, if_pos hproto, ih _ hsub]
          simp [hproto]
        · rw [assign, if_neg hproto, if_neg hp, ih _ (by simpa using hacc)]
          simp [hproto]
  exact key l [] (by simpa using h)

theorem unsignedZero_eq {x : Number} (hx : x.isFinite = true) :
    (if x = .negativeZero then .finite false 0 (-1074) canonical_zero else x) = x.unsignedZero := by
  cases x with
  | nan => cases hx
  | infinity negative => cases hx
  | finite negative m e h =>
      by_cases hm : m = 0
      · subst hm
        obtain rfl : e = -1074 := by
          obtain ⟨-, -, -, h | h⟩ := h
          · exact absurd h (by norm_num)
          · exact h
        cases negative <;> simp [Number.negativeZero, Number.unsignedZero]
      · simp [Number.negativeZero, Number.unsignedZero, hm]

theorem withoutProto_proper {v : Value} (h : v.Proper) : (withoutProto v).Proper := by
  induction v with
  | arr items ih =>
      rw [withoutProto, withoutProtoItems_eq]
      refine everywhere_arr.mpr ⟨trivial, fun w hw => ?_⟩
      obtain ⟨u, hu, rfl⟩ := List.mem_map.mp hw
      exact ih u hu ((everywhere_arr.mp h).2 u hu)
  | obj members ih =>
      obtain ⟨hn, hp⟩ := everywhere_obj.mp h
      rw [withoutProto, withoutProtoMembers_eq]
      refine everywhere_obj.mpr ⟨?_, fun p hmem => ?_⟩
      · rw [NamesUnique, List.map_map]
        exact List.Nodup.sublist (List.filter_sublist.map Prod.fst) hn
      · obtain ⟨q, hq, rfl⟩ := List.mem_map.mp hmem
        have hq := List.mem_of_mem_filter hq
        exact ih q hq (hp q hq)
  | _ => exact h

/-- The members of the canonical form of an object without `__proto__`. -/
theorem canon_withoutProto_obj {members : List (Text × Value)}
    (hn : (members.map Prod.fst).Nodup) :
    canon (withoutProto (.obj members))
      = .obj (((sortMembers members).filter fun p => p.1 ≠ protoName).map
          fun p => (p.1, canon (withoutProto p.2))) := by
  rw [withoutProto, withoutProtoMembers_eq, canon, canonMembers_eq, List.map_map,
    ← sortMembers_filter hn]
  congr 1
  exact sortMembers_map (fun p => canon (withoutProto p.2)) _

/-- **The rebuilt value is the canonical form of the value without its
`__proto__` members.** -/
theorem canonicalValue_eq {v : Value} (hp : v.Proper) (hf : Everywhere NumberFinite v)
    (location : Text) : canonicalValue location v = .ok (canon (withoutProto v)) := by
  induction v generalizing location with
  | null => rfl
  | bool b => rfl
  | str t => rfl
  | num x =>
      have hx : x.isFinite = true := hf.here
      rw [canonicalValue, if_pos hx, unsignedZero_eq hx]
      rfl
  | arr items ih =>
      have hitems : ∀ (l : List Value) (index : Nat), (∀ v ∈ l, v ∈ items) →
          canonicalItems location index l
            = (l.map fun v => canon (withoutProto v)).map Except.ok := by
        intro l
        induction l with
        | nil => exact fun _ _ => rfl
        | cons w l ihl =>
            intro index hl
            have hw := hl w (by simp)
            rw [canonicalItems, ihl _ fun v hv => hl v (List.mem_cons_of_mem _ hv),
              ih w hw ((everywhere_arr.mp hp).2 w hw) ((everywhere_arr.mp hf).2 w hw)]
            rfl
      rw [canonicalValue, hitems items 0 fun _ h => h, sequence_ok, withoutProto, canon,
        canonItems_eq, withoutProtoItems_eq, List.map_map]
      rfl
  | obj members ih =>
      obtain ⟨hn, hp'⟩ := everywhere_obj.mp hp
      have hentries : ∀ l : List (Text × Value), (∀ p ∈ l, p ∈ members) →
          canonicalEntries location l
            = l.map fun p => (p.1, .ok (p.1, canon (withoutProto p.2))) := by
        intro l
        induction l with
        | nil => exact fun _ => rfl
        | cons p l ihl =>
            intro hl
            have hmem := hl p (by simp)
            rw [canonicalEntries, ih p hmem (hp' p hmem) ((everywhere_obj.mp hf).2 p hmem),
              ihl fun q hq => hl q (List.mem_cons_of_mem _ hq)]
            rfl
      have hnames : ((canonicalEntries location members).map Prod.fst).Nodup := by
        rw [hentries members fun _ h => h, List.map_map]
        exact hn
      have hsort : (sortMembers (canonicalEntries location members)).map Prod.snd
          = ((sortMembers members).map fun p => (p.1, canon (withoutProto p.2))).map Except.ok := by
        rw [hentries members fun _ h => h, sortMembers_map, List.map_map, List.map_map]
        rfl
      have hsorted : (((sortMembers members).map
          fun p => (p.1, canon (withoutProto p.2))).map Prod.fst).Nodup := by
        rw [List.map_map]
        exact ((sortMembers_perm members).map Prod.fst).nodup_iff.mpr hn
      rw [canonicalValue, sortMembers_propertyOrder hnames, hsort, sequence_ok]
      simp only [foldl_assign hsorted]
      rw [canon_withoutProto_obj hn, List.filter_map]
      rfl

theorem mem_canonicalItems (location : Text) {v : Value} : ∀ {items : List Value} (index : Nat),
    v ∈ items → ∃ location', canonicalValue location' v ∈ canonicalItems location index items
  | w :: items, index, h => by
      rcases List.mem_cons.mp h with rfl | h
      · exact ⟨_, List.mem_cons_self ..⟩
      · obtain ⟨location', hl⟩ := mem_canonicalItems location (index + 1) h
        exact ⟨location', List.mem_cons_of_mem _ hl⟩

theorem mem_canonicalEntries (location : Text) {p : Text × Value} :
    ∀ {members : List (Text × Value)}, p ∈ members →
      ∃ r, (p.1, r) ∈ canonicalEntries location members ∧
        ∀ e, r = .ok e → ∃ location' w, canonicalValue location' p.2 = .ok w
  | q :: members, h => by
      rcases List.mem_cons.mp h with rfl | h
      · refine ⟨_, List.mem_cons_self .., fun e he => ?_⟩
        split at he
        · cases he
        · next w hw => exact ⟨_, w, hw⟩
      · obtain ⟨r, hr, h'⟩ := mem_canonicalEntries location h
        exact ⟨r, List.mem_cons_of_mem _ hr, h'⟩

/-- Only values whose numbers are finite are rebuilt. -/
theorem finite_of_canonicalValue {v : Value} {location : Text} {w : Value}
    (h : canonicalValue location v = .ok w) : Everywhere NumberFinite v := by
  induction v generalizing location w with
  | num x =>
      rw [canonicalValue] at h
      split at h
      · next hx => exact (everywhere_leaf rfl).mpr hx
      · cases h
  | arr items ih =>
      rw [canonicalValue] at h
      split at h
      · cases h
      · next parts hparts =>
        refine everywhere_arr.mpr ⟨trivial, fun v hv => ?_⟩
        obtain ⟨location', hmem⟩ := mem_canonicalItems location 0 hv
        rw [sequence_eq_ok hparts] at hmem
        obtain ⟨w', -, hw'⟩ := List.mem_map.mp hmem
        exact ih v hv hw'.symm
  | obj members ih =>
      rw [canonicalValue] at h
      split at h
      · cases h
      · next parts hparts =>
        refine everywhere_obj.mpr ⟨trivial, fun p hp => ?_⟩
        obtain ⟨r, hmem, hr⟩ := mem_canonicalEntries location hp
        have hperm :=
          (sortMembers_perm _).trans (propertyOrder_perm (canonicalEntries location members))
        have hmem' := List.mem_map_of_mem (f := Prod.snd) (hperm.mem_iff.mpr hmem)
        rw [sequence_eq_ok hparts] at hmem'
        obtain ⟨e, -, he⟩ := List.mem_map.mp hmem'
        obtain ⟨location', w', hw'⟩ := hr e he.symm
        exact ih p hp hw'
  | _ => exact (everywhere_leaf rfl).mpr trivial

/-! ## What the identity can see -/

theorem everywhere_avoids_withoutProto (v : Value) :
    Everywhere (Avoids protoName) (withoutProto v) := by
  induction v with
  | arr items ih =>
      rw [withoutProto, withoutProtoItems_eq]
      refine everywhere_arr.mpr ⟨trivial, fun w hw => ?_⟩
      obtain ⟨u, hu, rfl⟩ := List.mem_map.mp hw
      exact ih u hu
  | obj members ih =>
      rw [withoutProto, withoutProtoMembers_eq]
      refine everywhere_obj.mpr ⟨?_, fun p hmem => ?_⟩
      · rw [Avoids, List.map_map]
        intro h
        obtain ⟨q, hq, hname⟩ := List.mem_map.mp h
        simpa [show q.1 = protoName from hname] using (List.mem_filter.mp hq).2
      · obtain ⟨q, hq, rfl⟩ := List.mem_map.mp hmem
        exact ih q (List.mem_of_mem_filter hq)
  | _ => exact (everywhere_leaf rfl).mpr trivial

theorem withoutProto_of_avoids {v : Value} (h : Everywhere (Avoids protoName) v) :
    withoutProto v = v := by
  induction v with
  | arr items ih =>
      rw [withoutProto, withoutProtoItems_eq]
      congr 1
      conv_rhs => rw [← List.map_id items]
      exact List.map_congr_left fun u hu => ih u hu ((everywhere_arr.mp h).2 u hu)
  | obj members ih =>
      obtain ⟨hname, hv⟩ := everywhere_obj.mp h
      have hfilter : members.filter (fun p => p.1 ≠ protoName) = members :=
        List.filter_eq_self.mpr fun p hp => by
          simpa using fun he : p.1 = protoName => hname (he ▸ List.mem_map_of_mem hp)
      rw [withoutProto, withoutProtoMembers_eq, hfilter]
      congr 1
      conv_rhs => rw [← List.map_id members]
      exact List.map_congr_left fun p hp => by rw [ih p hp (hv p hp)]; rfl
  | _ => rfl

theorem everywhere_avoids_canon_iff {name : Text} {v : Value} :
    Everywhere (Avoids name) v.canon ↔ Everywhere (Avoids name) v := by
  induction v with
  | num x => exact ⟨fun _ => (everywhere_leaf rfl).mpr trivial,
      fun _ => (everywhere_leaf rfl).mpr trivial⟩
  | arr items ih =>
      rw [canon, canonItems_eq, everywhere_arr, everywhere_arr, List.forall_mem_map]
      exact ⟨fun h => ⟨trivial, fun v hv => (ih v hv).mp (h.2 v hv)⟩,
        fun h => ⟨trivial, fun v hv => (ih v hv).mpr (h.2 v hv)⟩⟩
  | obj members ih =>
      have hnames := ((sortMembers_perm (canonMembers members)).map Prod.fst).mem_iff (a := name)
      rw [canonMembers_names] at hnames
      rw [canon, everywhere_obj, everywhere_obj, Avoids, Avoids, hnames]
      simp only [(sortMembers_perm _).mem_iff, canonMembers_eq, List.forall_mem_map]
      exact ⟨fun h => ⟨h.1, fun p hp => (ih p hp).mp (h.2 p hp)⟩,
        fun h => ⟨h.1, fun p hp => (ih p hp).mpr (h.2 p hp)⟩⟩
  | _ => rfl

/-- Removing the `__proto__` members changes the data exactly when there are any. -/
theorem canon_withoutProto_eq_iff {v : Value} :
    canon (withoutProto v) = v.canon ↔ Everywhere (Avoids protoName) v := by
  constructor
  · intro h
    have := everywhere_avoids_canon_iff.mpr (everywhere_avoids_withoutProto v)
    rw [h] at this
    exact everywhere_avoids_canon_iff.mp this
  · intro h
    rw [withoutProto_of_avoids h]

theorem finite_withoutProto {v : Value} (h : Everywhere NumberFinite v) :
    Everywhere NumberFinite (withoutProto v) := by
  induction v with
  | arr items ih =>
      rw [withoutProto, withoutProtoItems_eq]
      refine everywhere_arr.mpr ⟨trivial, fun w hw => ?_⟩
      obtain ⟨u, hu, rfl⟩ := List.mem_map.mp hw
      exact ih u hu ((everywhere_arr.mp h).2 u hu)
  | obj members ih =>
      rw [withoutProto, withoutProtoMembers_eq]
      refine everywhere_obj.mpr ⟨trivial, fun p hmem => ?_⟩
      obtain ⟨q, hq, rfl⟩ := List.mem_map.mp hmem
      have hq := List.mem_of_mem_filter hq
      exact ih q hq ((everywhere_obj.mp h).2 q hq)
  | _ => exact h

/-- The text of a rebuilt value. -/
def contentText (v : Value) : Text := stringify (js "  ") (canon (withoutProto v)) ++ js "\n"

/-- The spec of `canonicalJson`. -/
theorem canonicalJson_eq_ok_iff {v : Value} (hp : v.Proper) {t : Text} :
    canonicalJson v = .ok t ↔ Everywhere NumberFinite v ∧ t = contentText v := by
  unfold canonicalJson canonicalize
  constructor
  · intro h
    split at h
    · cases h
    · next c hc =>
      have hf := finite_of_canonicalValue hc
      rw [canonicalValue_eq hp hf] at hc
      cases hc
      exact ⟨hf, (Except.ok.inj h).symm⟩
  · rintro ⟨hf, rfl⟩
    rw [canonicalValue_eq hp hf]
    rfl

/-- The text is parsed as the rebuilt value, in property order. -/
theorem parse_contentText {v : Value} (hp : v.Proper) (hf : Everywhere NumberFinite v) :
    parse (contentText v) = some (ordered (canon (withoutProto v))) :=
  parse_stringify (List.all_eq_true.mp (by decide)) (canon_proper (withoutProto_proper hp))
    (canon_spelled (finite_withoutProto hf)) (List.all_eq_true.mp (by decide))

/-- **Two values have one text when they differ in `__proto__` members only.** -/
theorem contentText_inj {v w : Value} (hv : v.Proper) (hw : w.Proper)
    (hvf : Everywhere NumberFinite v) (hwf : Everywhere NumberFinite w) :
    contentText v = contentText w ↔ canon (withoutProto v) = canon (withoutProto w) := by
  refine ⟨fun h => ?_, fun h => by rw [contentText, contentText, h]⟩
  have hparse := parse_contentText hv hvf
  rw [h, parse_contentText hw hwf] at hparse
  have hv' := withoutProto_proper hv
  have hw' := withoutProto_proper hw
  have := congrArg canon (Option.some.inj hparse)
  rw [canon_ordered (canon_proper hw'), canon_ordered (canon_proper hv'), canon_canon hw',
    canon_canon hv'] at this
  exact this.symm

theorem contentText_wellFormed (v : Value) : WellFormed (contentText v) :=
  (render_wellFormed (ascii_of_all (by decide)) (by simp) _).append (by decide)

/-- The text says what the value is exactly when no object in it has a
member called `__proto__`. -/
theorem parse_canonicalJson_iff {v : Value} (hp : v.Proper) {t : Text}
    (h : canonicalJson v = .ok t) :
    (∃ r, parse t = some r ∧ SameData r v) ↔ Everywhere (Avoids protoName) v := by
  obtain ⟨hf, rfl⟩ := (canonicalJson_eq_ok_iff hp).mp h
  have hp' := withoutProto_proper hp
  rw [parse_contentText hp hf, ← canon_withoutProto_eq_iff]
  simp only [Option.some.injEq, exists_eq_left', sameData_iff_canon hp,
    canon_ordered (canon_proper hp'), canon_canon hp']

/-! ## What a seal protects -/

/-- The digest of a text, as a record stores it. -/
def digestText (t : Text) : Text := js "sha256:" ++ sha256Hex (textEncode t)

theorem digestText_eq_iff {a b : Text} (ha : WellFormed a) (hb : WellFormed b) :
    digestText a = digestText b ↔ a = b ∨ Collision (textEncode a) (textEncode b) := by
  rw [digestText, digestText, List.append_cancel_left_eq, sha256Hex_eq_iff, textEncode_inj ha hb]

theorem sha256_eq {v : Value} (hp : v.Proper) (hf : Everywhere NumberFinite v) :
    sha256 v = .ok (digestText (contentText v)) := by
  rw [sha256, (canonicalJson_eq_ok_iff hp).mpr ⟨hf, rfl⟩]
  rfl

theorem finite_of_sha256 {v : Value} (hp : v.Proper) {digest : Text} (h : sha256 v = .ok digest) :
    Everywhere NumberFinite v := by
  unfold sha256 at h
  split at h
  · cases h
  · next t ht => exact ((canonicalJson_eq_ok_iff hp).mp ht).1

/-- The identity does not see the order of members. -/
theorem contentText_perm {l l' : List (Text × Value)} (hn : (l.map Prod.fst).Nodup)
    (h : l.Perm l') : contentText (.obj l) = contentText (.obj l') := by
  have hn' : (l'.map Prod.fst).Nodup := (h.map Prod.fst).nodup_iff.mp hn
  rw [contentText, contentText, canon_withoutProto_obj hn, canon_withoutProto_obj hn',
    sortMembers_congr hn h]

theorem withoutFields_perm (members : List (Text × Value)) (fields : List Text) :
    (withoutFields members fields).Perm (members.filter fun p => p.1 ∉ fields) :=
  (propertyOrder_perm members).filter _

theorem everywhere_obj_sublist {P : Value → Prop} {l l' : List (Text × Value)}
    (h : Everywhere P (.obj l)) (hP : P (.obj l')) (hs : ∀ p ∈ l', p ∈ l) :
    Everywhere P (.obj l') :=
  everywhere_obj.mpr ⟨hP, fun p hp => (everywhere_obj.mp h).2 p (hs p hp)⟩

theorem withoutFields_proper {members : List (Text × Value)} (hp : (Value.obj members).Proper)
    (fields : List Text) : (Value.obj (withoutFields members fields)).Proper := by
  have hperm := withoutFields_perm members fields
  refine everywhere_obj_sublist hp ?_ fun p hp' =>
    List.mem_of_mem_filter (hperm.mem_iff.mp hp')
  rw [NamesUnique, (hperm.map Prod.fst).nodup_iff]
  exact List.Nodup.sublist (List.filter_sublist.map Prod.fst) (everywhere_obj.mp hp).1

theorem lookup_append {name : Text} {l l' : List (Text × Value)} {v : Value}
    (h : lookup name l = some v) : lookup name (l ++ l') = some v := by
  unfold lookup at h ⊢
  obtain ⟨p, hp, rfl⟩ := Option.map_eq_some_iff.mp h
  rw [List.find?_append, hp]
  rfl

theorem mem_names_of_lookup {name : Text} {l : List (Text × Value)} {v : Value}
    (h : lookup name l = some v) : name ∈ l.map Prod.fst := by
  obtain ⟨p, hp, -⟩ := Option.map_eq_some_iff.mp h
  have hname : p.1 = name := by simpa using List.find?_some hp
  exact hname ▸ List.mem_map_of_mem (List.mem_of_find?_eq_some hp)

/-- What is accepted: the stored digest is the one of the other members. -/
theorem assertRecordSha256_eq_ok_iff {members : List (Text × Value)} {hashField label : Text} :
    assertRecordSha256 members hashField label = .ok () ↔
      ∃ digest, recordSha256 members hashField = .ok digest ∧
        lookup hashField members = some (.str digest) := by
  unfold assertRecordSha256
  constructor
  · intro h
    split at h
    · cases h
    · next expected he =>
      split at h
      · next received hr =>
        split at h
        · next heq => exact ⟨expected, he, heq ▸ hr⟩
        · cases h
      · cases h
  · rintro ⟨digest, h₁, h₂⟩
    simp [h₁, h₂]

/-- A member of a new name changes the content unless it is called `__proto__`. -/
theorem contentText_append_eq_iff {l : List (Text × Value)} {name : Text} {x : Value}
    (hp : (Value.obj l).Proper) (hf : Everywhere NumberFinite (.obj l))
    (hname : name ∉ l.map Prod.fst) (hx : x.Proper) (hxf : Everywhere NumberFinite x) :
    contentText (.obj l) = contentText (.obj (l ++ [(name, x)])) ↔ name = protoName := by
  have hp' := proper_append hp hname hx
  have hf' : Everywhere NumberFinite (.obj (l ++ [(name, x)])) := by
    refine everywhere_obj.mpr ⟨trivial, fun p hmem => ?_⟩
    rcases List.mem_append.mp hmem with hmem | hmem
    · exact (everywhere_obj.mp hf).2 p hmem
    · rw [List.mem_singleton.mp hmem]; exact hxf
  have hn := (everywhere_obj.mp hp).1
  have hn' := (everywhere_obj.mp hp').1
  rw [contentText_inj hp hp' hf hf', canon_withoutProto_obj hn, canon_withoutProto_obj hn',
    ← sortMembers_filter hn, ← sortMembers_filter hn', List.filter_append]
  constructor
  · intro h
    by_contra hproto
    have h := congrArg (List.map Prod.fst) (Value.obj.inj h)
    simp only [List.map_map, Function.comp_def] at h
    have hmem : name ∈ (sortMembers (l.filter (fun p => p.1 ≠ protoName)
        ++ [(name, x)].filter fun p => p.1 ≠ protoName)).map Prod.fst := by
      rw [((sortMembers_perm _).map Prod.fst).mem_iff]
      simp [hproto]
    rw [← h, ((sortMembers_perm _).map Prod.fst).mem_iff] at hmem
    obtain ⟨p, hp₁, hp₂⟩ := List.mem_map.mp hmem
    exact hname (hp₂ ▸ List.mem_map_of_mem (List.mem_of_mem_filter hp₁))
  · rintro rfl
    rw [List.filter_cons_of_neg (by simp), List.filter_nil, List.append_nil]

/-- **What becomes of an accepted record when a member is added to it**: it is
still accepted when the member is called `__proto__`, and otherwise only if
the two contents are a SHA-256 collision. -/
theorem assertRecordSha256_append_iff {record : List (Text × Value)}
    {hashField label name : Text} {x : Value} (hp : (Value.obj record).Proper)
    (hacc : assertRecordSha256 record hashField label = .ok ())
    (hname : name ∉ record.map Prod.fst) (hx : x.Proper) (hxf : Everywhere NumberFinite x) :
    assertRecordSha256 (record ++ [(name, x)]) hashField label = .ok () ↔
      name = protoName ∨
        Collision (textEncode (contentText (.obj (withoutFields record [hashField]))))
          (textEncode (contentText (.obj (withoutFields (record ++ [(name, x)]) [hashField])))) := by
  obtain ⟨digest, hdigest, hlookup⟩ := assertRecordSha256_eq_ok_iff.mp hacc
  have hname' : name ≠ hashField := fun h => hname (h ▸ mem_names_of_lookup hlookup)
  have hp' := proper_append hp hname hx
  have hcp := withoutFields_proper hp [hashField]
  have hcp' := withoutFields_proper hp' [hashField]
  have hcf : Everywhere NumberFinite (.obj (withoutFields record [hashField])) :=
    finite_of_sha256 hcp hdigest
  have hsub : ∀ p ∈ withoutFields record [hashField], p ∈ record := fun p hp =>
    List.mem_of_mem_filter ((withoutFields_perm _ _).mem_iff.mp hp)
  have hfresh : name ∉ (withoutFields record [hashField]).map Prod.fst := by
    intro h
    obtain ⟨p, hp₁, hp₂⟩ := List.mem_map.mp h
    exact hname (hp₂ ▸ List.mem_map_of_mem (hsub p hp₁))
  -- the new content is the old one with one member more
  have hperm : (withoutFields (record ++ [(name, x)]) [hashField]).Perm
      (withoutFields record [hashField] ++ [(name, x)]) := by
    have h := withoutFields_perm (record ++ [(name, x)]) [hashField]
    rw [List.filter_append, List.filter_cons_of_pos (by simpa using hname'), List.filter_nil] at h
    exact h.trans ((withoutFields_perm record [hashField]).symm.append_right _)
  have hcf' : Everywhere NumberFinite (.obj (withoutFields (record ++ [(name, x)]) [hashField])) := by
    refine everywhere_obj.mpr ⟨trivial, fun p hmem => ?_⟩
    rcases List.mem_append.mp (hperm.mem_iff.mp hmem) with hmem | hmem
    · exact (everywhere_obj.mp hcf).2 p hmem
    · rw [List.mem_singleton.mp hmem]; exact hxf
  have hcontent := contentText_append_eq_iff hcp hcf hfresh hx hxf
  rw [← contentText_perm (everywhere_obj.mp hcp').1 hperm] at hcontent
  rw [recordSha256, sha256_eq hcp hcf] at hdigest
  rw [← hcontent, ← digestText_eq_iff (contentText_wellFormed _) (contentText_wellFormed _),
    Except.ok.inj hdigest, assertRecordSha256_eq_ok_iff, lookup_append hlookup, recordSha256,
    sha256_eq hcp' hcf']
  constructor
  · rintro ⟨d, h₁, h₂⟩
    rw [Except.ok.inj h₁, Value.str.inj (Option.some.inj h₂)]
  · intro h
    exact ⟨digest, by rw [h], rfl⟩

/-- A sealed record is accepted. -/
theorem assertRecordSha256_sealRecord {members record : List (Text × Value)}
    {hashField : Text} (label : Text) (hp : (Value.obj members).Proper) (hfield : hashField ≠ protoName)
    (h : sealRecord members hashField = .ok record) :
    (Value.obj record).Proper ∧ assertRecordSha256 record hashField label = .ok () := by
  unfold sealRecord at h
  dsimp only at h
  generalize hcontent : (propertyOrder members).filter (fun p => p.1 ≠ hashField) = content at h
  have hmem : ∀ p ∈ content, p ∈ members := fun p hp =>
    (propertyOrder_perm members).mem_iff.mp (List.mem_of_mem_filter (hcontent ▸ hp))
  have hfresh : hashField ∉ content.map Prod.fst := by
    intro hc
    obtain ⟨p, hp₁, hp₂⟩ := List.mem_map.mp hc
    rw [← hcontent] at hp₁
    simpa [hp₂] using (List.mem_filter.mp hp₁).2
  have hnodup : (content.map Prod.fst).Nodup := by
    rw [← hcontent]
    exact List.Nodup.sublist (List.filter_sublist.map Prod.fst)
      (((propertyOrder_perm members).map Prod.fst).nodup_iff.mpr (everywhere_obj.mp hp).1)
  have hcp : (Value.obj content).Proper := everywhere_obj_sublist hp hnodup hmem
  split at h
  · cases h
  · next digest hdigest =>
    rw [assign, if_neg hfield, if_neg hfresh] at h
    obtain rfl := Except.ok.inj h
    have hrp : (Value.obj (content ++ [(hashField, .str digest)])).Proper :=
      proper_append hcp hfresh ((everywhere_leaf rfl).mpr trivial)
    refine ⟨hrp, assertRecordSha256_eq_ok_iff.mpr ⟨digest, ?_, ?_⟩⟩
    · have hperm := withoutFields_perm (content ++ [(hashField, .str digest)]) [hashField]
      have hself : content.filter (fun p => p.1 ∉ [hashField]) = content :=
        List.filter_eq_self.mpr fun p hp => by
          simpa using fun he : p.1 = hashField => hfresh (he ▸ List.mem_map_of_mem hp)
      rw [List.filter_append, hself, List.filter_cons_of_neg (by simp), List.filter_nil,
        List.append_nil] at hperm
      have hf := finite_of_sha256 hcp hdigest
      have hwp := withoutFields_proper hrp [hashField]
      have hwf : Everywhere NumberFinite
          (.obj (withoutFields (content ++ [(hashField, .str digest)]) [hashField])) :=
        everywhere_obj_sublist hf trivial fun p hp => hperm.mem_iff.mp hp
      rw [recordSha256, sha256_eq hwp hwf, contentText_perm (everywhere_obj.mp hwp).1 hperm,
        ← sha256_eq hcp hf, hdigest]
    · have hnone : content.find? (fun p => p.1 = hashField) = none :=
        List.find?_eq_none.mpr fun p hp => by
          simpa using fun he : p.1 = hashField => hfresh (he ▸ List.mem_map_of_mem hp)
      rw [lookup, List.find?_append, hnone]
      simp

/-! ## The content identity -/

/-- **What the content identity identifies.**  The text of a value is parsed
back as the same data exactly when no object in the value has a member called
`__proto__`; two such values with one text are the same data; and a sealed
record to which a member was added is refused, unless the member is called
`__proto__` or the two contents are a SHA-256 collision. -/
theorem canonicalJson_identity {v : Value} {t : Text} (hv : v.Proper)
    (htv : canonicalJson v = .ok t) :
    ((∃ r, parse t = some r ∧ SameData r v) ↔ Everywhere (Avoids protoName) v) ∧
    (∀ w : Value, w.Proper → canonicalJson w = .ok t → Everywhere (Avoids protoName) v →
      Everywhere (Avoids protoName) w → SameData v w) ∧
    (∀ (members record : List (Text × Value)) (hashField label name : Text) (x : Value),
      (Value.obj members).Proper → hashField ≠ protoName →
      sealRecord members hashField = .ok record → name ∉ record.map Prod.fst →
      x.Proper → Everywhere NumberFinite x →
      (assertRecordSha256 (record ++ [(name, x)]) hashField label = .ok () ↔
        name = protoName ∨
          Collision (textEncode (contentText (.obj (withoutFields record [hashField]))))
            (textEncode (contentText
              (.obj (withoutFields (record ++ [(name, x)]) [hashField])))))) := by
  refine ⟨parse_canonicalJson_iff hv htv, ?_, ?_⟩
  · intro w hw htw hav haw
    obtain ⟨hvf, rfl⟩ := (canonicalJson_eq_ok_iff hv).mp htv
    obtain ⟨hwf, h⟩ := (canonicalJson_eq_ok_iff hw).mp htw
    have h := (contentText_inj hv hw hvf hwf).mp h
    rw [withoutProto_of_avoids hav, withoutProto_of_avoids haw] at h
    exact sameData_of_canon_eq h
  · intro members record hashField label name x hp hfield hseal hname hx hxf
    obtain ⟨hrp, hacc⟩ := assertRecordSha256_sealRecord label hp hfield hseal
    exact assertRecordSha256_append_iff hrp hacc hname hx hxf

/-- `{ "a": true }`. -/
def sampleMembers : List (Text × Value) := [(js "a", .bool true)]

theorem canonicalJson_identity_sample :
    ((∃ r, parse (contentText (.obj sampleMembers)) = some r ∧ SameData r (.obj sampleMembers)) ↔
      Everywhere (Avoids protoName) (.obj sampleMembers)) ∧
    SameData (.obj sampleMembers) (.obj sampleMembers) ∧
    ∃ record, sealRecord sampleMembers (js "sha") = .ok record ∧
      (assertRecordSha256 (record ++ [(js "b", .null)]) (js "sha") (js "Record") = .ok () ↔
        js "b" = protoName ∨
          Collision (textEncode (contentText (.obj (withoutFields record [js "sha"]))))
            (textEncode (contentText
              (.obj (withoutFields (record ++ [(js "b", .null)]) [js "sha"]))))) := by
  have hp : (Value.obj sampleMembers).Proper := by decide
  have hf : Everywhere NumberFinite (.obj sampleMembers) := by decide
  have ha : Everywhere (Avoids protoName) (.obj sampleMembers) := by decide
  have ht := (canonicalJson_eq_ok_iff hp).mpr ⟨hf, rfl⟩
  obtain ⟨hreads, hsame, hseal⟩ := canonicalJson_identity hp ht
  refine ⟨hreads, hsame _ hp ht ha ha,
    sampleMembers ++ [(js "sha", .str (digestText (contentText (.obj sampleMembers))))], ?_, ?_⟩
  · rfl
  · exact hseal sampleMembers _ _ _ _ _ hp (by decide) rfl (by decide) (by decide) (by decide)

/-- `{ "__proto__": null }` and `{}` have one text. -/
theorem canonicalJson_proto :
    ¬ ∀ (v w : Value) (t : Text), v.Proper → w.Proper → canonicalJson v = .ok t →
      canonicalJson w = .ok t → SameData v w := by
  intro h
  have hw : (Value.obj []).Proper := by decide
  have hsame := h (.obj [(js "__proto__", .null)]) (.obj []) (js "\x7b\x7d\n") (by decide) hw rfl rfl
  rw [sameData_iff_canon hw] at hsame
  cases hsame

end WorldModel

end SingularityFlow
