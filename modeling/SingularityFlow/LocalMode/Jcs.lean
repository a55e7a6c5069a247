/-
# The canonical JSON of local records

`canonicalJcs` prints a value with the names of every object sorted by code
units, and refuses what RFC 8785 has no text for: unpaired surrogates and
numbers that are not finite.  `parseCanonicalJcs` decodes, parses, prints
again and compares, so acceptance is decided by the printer.

The comparison is between strings, after decoding.  What it cannot see is
what decoding removes, and a `TextDecoder` removes one leading byte order
mark: the canonical octets behind `EF BB BF` are accepted as well, and these
are the only other octets that are (`parseCanonicalJcs_eq_ok_iff`).
-/
import SingularityFlow.Errors
import SingularityFlow.Lib.Utf8
import SingularityFlow.Lib.JsonRoundTrip

namespace SingularityFlow

open Ecma Ecma.Value

namespace Jcs

/-! ## The encoder -/

/-- `fail` of the module. -/
def failure (message : Text) : Failure :=
  .singularityFlow message (some (js "LOCAL_RECORD_INVALID"))

/-- The units of `value` are walked, a surrogate pair taken as one. -/
def validUnicode (label : Text) : Text → Except Failure Unit
  | [] => .ok ()
  | [code] =>
      -- behind the last unit `charCodeAt` is NaN, which is no low surrogate
      if isHighSurrogate code || isLowSurrogate code then
        .error (failure (label ++ js " contains an unpaired Unicode surrogate."))
      else .ok ()
  | code :: next :: rest =>
      if isHighSurrogate code then
        if isLowSurrogate next then validUnicode label rest
        else .error (failure (label ++ js " contains an unpaired Unicode surrogate."))
      else if isLowSurrogate code then
        .error (failure (label ++ js " contains an unpaired Unicode surrogate."))
      else validUnicode label (next :: rest)

mutual

/-- The canonical text of a value; `label` names it in what is thrown.  A
value that `JSON.parse` builds has no cycle, no member that is undefined and
no prototype of its own, so the branches for these are not reached. -/
def encode (label : Text) : Value → Except Failure Text
  | .null => .ok (js "null")
  | .bool b => .ok (if b then js "true" else js "false")
  | .str value =>
      match validUnicode label value with
      | .error e => .error e
      | .ok () => .ok (quote value)
  | .num value =>
      if value.isFinite then .ok value.text
      else .error (failure (label ++ js " contains a non-finite number."))
  | .arr items =>
      match sequence (encodeItems label 0 items) with
      | .error e => .error e
      | .ok parts => .ok (js "[" ++ joinWith (js ",") parts ++ js "]")
  | .obj members =>
      -- `Object.keys(value).sort()`; the keys are then mapped in that order
      match sequence ((sortMembers (propertyOrder (encodeMembers label members))).map Prod.snd) with
      | .error e => .error e
      | .ok parts => .ok (js "\x7b" ++ joinWith (js ",") parts ++ js "\x7d")

def encodeItems (label : Text) (index : Nat) : List Value → List (Except Failure Text)
  | [] => []
  | v :: rest =>
      encode (label ++ js "[" ++ natText index ++ js "]") v :: encodeItems label (index + 1) rest

def encodeMembers (label : Text) : List (Text × Value) → List (Text × Except Failure Text)
  | [] => []
  | (key, v) :: rest =>
      (key,
        match validUnicode (label ++ js " key") key with
        | .error e => .error e
        | .ok () =>
            match encode (label ++ js "." ++ key) v with
            | .error e => .error e
            | .ok text => .ok (quote key ++ js ":" ++ text))
        :: encodeMembers label rest

end

def canonicalJcs (value : Value) : Except Failure Text := encode (js "record") value

/-- What `canonicalJcs` has a text for. -/
def Encodable (v : Value) : Prop :=
  Everywhere (fun w => SurrogatesPaired w ∧ NumberFinite w) v

theorem validUnicode_eq_ok_iff (label : Text) : ∀ {t : Text},
    validUnicode label t = .ok () ↔ WellFormed t
  | [] => by simp [validUnicode, WellFormed, wellFormed]
  | [u] => by
      by_cases h : isHighSurrogate u || isLowSurrogate u
      · simp only [validUnicode, h, if_true, WellFormed, wellFormed]
        revert h
        cases isHighSurrogate u <;> cases isLowSurrogate u <;> simp
      · simp only [Bool.or_eq_true, not_or, Bool.not_eq_true] at h
        simp [validUnicode, h, WellFormed, wellFormed]
  | u :: v :: rest => by
      have ih₁ := validUnicode_eq_ok_iff label (t := rest)
      have ih₂ := validUnicode_eq_ok_iff label (t := v :: rest)
      unfold validUnicode WellFormed wellFormed
      by_cases h₁ : isHighSurrogate u = true <;> by_cases h₂ : isLowSurrogate v = true <;>
        by_cases h₃ : isLowSurrogate u = true <;>
        simp_all [WellFormed]

/-! ## What is encoded, and how -/

theorem encodable_arr {items : List Value} :
    Encodable (.arr items) ↔ ∀ v ∈ items, Encodable v := by
  rw [Encodable, everywhere_arr]
  exact ⟨fun h => h.2, fun h => ⟨⟨trivial, trivial⟩, h⟩⟩

theorem encodable_obj {members : List (Text × Value)} :
    Encodable (.obj members) ↔ ∀ p ∈ members, WellFormed p.1 ∧ Encodable p.2 := by
  rw [Encodable, everywhere_obj]
  exact ⟨fun h p hp => ⟨h.1.1 p hp, h.2 p hp⟩, fun h => ⟨⟨fun p hp => (h p hp).1, trivial⟩,
    fun p hp => (h p hp).2⟩⟩

/-- The text of a member: its quoted name, a colon and its value. -/
def memberText (p : Text × Value) : Text := quote p.1 ++ 0x3A :: render [] [] p.2.canon

theorem marks : js "[" = [0x5B] ∧ js "]" = [0x5D] ∧ js "\x7b" = [0x7B] ∧ js "\x7d" = [0x7D] ∧
    js "," = [0x2C] ∧ js ":" = [0x3A] := by decide

theorem render_canon_arr (items : List Value) :
    render [] [] (canon (.arr items))
      = js "[" ++ joinWith (js ",") (items.map fun v => render [] [] v.canon) ++ js "]" := by
  rw [canon, render, bracket_no_gap, renderItems_eq, canonItems_eq, List.map_map]
  simp [marks, Function.comp_def]

theorem render_canon_obj (members : List (Text × Value)) :
    render [] [] (canon (.obj members))
      = js "\x7b" ++ joinWith (js ",") ((sortMembers members).map memberText) ++ js "\x7d" := by
  rw [canon, render, bracket_no_gap, renderMembers_eq, canonMembers_eq, sortMembers_map,
    List.map_map]
  simp only [marks, List.cons_append, List.nil_append, Function.comp_def, if_true]
  rfl

/-- **An encodable value is encoded, as the text of its canonical form.** -/
theorem encode_of_encodable {v : Value} (hp : v.Proper) (hv : Encodable v) (label : Text) :
    encode label v = .ok (render [] [] v.canon) := by
  induction v generalizing label with
  | null => rfl
  | bool b => rfl
  | num x =>
      have hx : x.isFinite = true := hv.here.2
      have ht : x.unsignedZero.text = x.text := by
        cases x with
        | finite negative m e h => by_cases hm : m = 0 <;> simp [Number.unsignedZero, Number.text, hm]
        | nan => rfl
        | infinity negative => rfl
      rw [encode, if_pos hx, canon, render, Number.isFinite_unsignedZero, if_pos hx, ht]
  | str t =>
      rw [encode, (validUnicode_eq_ok_iff label).mpr hv.here.1]
      rfl
  | arr items ih =>
      have hitems : ∀ (l : List Value) (index : Nat), (∀ v ∈ l, v ∈ items) →
          encodeItems label index l
            = (l.map fun v => render [] [] v.canon).map Except.ok := by
        intro l
        induction l with
        | nil => exact fun _ _ => rfl
        | cons w l ihl =>
            intro index hl
            have hw := hl w (by simp)
            rw [encodeItems, ihl _ fun v hv => hl v (List.mem_cons_of_mem _ hv),
              ih w hw ((everywhere_arr.mp hp).2 w hw) (encodable_arr.mp hv w hw)]
            rfl
      rw [encode, hitems items 0 fun _ h => h, sequence_ok, render_canon_arr]
  | obj members ih =>
      obtain ⟨hn, hp'⟩ := everywhere_obj.mp hp
      have hmembers : ∀ l : List (Text × Value), (∀ p ∈ l, p ∈ members) →
          encodeMembers label l = l.map fun p => (p.1, .ok (memberText p)) := by
        intro l
        induction l with
        | nil => exact fun _ => rfl
        | cons p l ihl =>
            intro hl
            have hmem := hl p (by simp)
            obtain ⟨hname, hval⟩ := encodable_obj.mp hv p hmem
            rw [encodeMembers, (validUnicode_eq_ok_iff _).mpr hname,
              ih p hmem (hp' p hmem) hval, ihl fun q hq => hl q (List.mem_cons_of_mem _ hq)]
            simp [memberText, marks]
      have hnames : ((encodeMembers label members).map Prod.fst).Nodup := by
        rw [hmembers members fun _ h => h, List.map_map]
        exact hn
      have hsort : (sortMembers (encodeMembers label members)).map Prod.snd
          = ((sortMembers members).map memberText).map Except.ok := by
        rw [hmembers members fun _ h => h, sortMembers_map, List.map_map, List.map_map]
        rfl
      rw [encode, sortMembers_propertyOrder hnames, hsort, sequence_ok, render_canon_obj]

theorem mem_encodeItems (label : Text) {v : Value} : ∀ {items : List Value} (index : Nat),
    v ∈ items → ∃ label', encode label' v ∈ encodeItems label index items
  | w :: items, index, h => by
      rcases List.mem_cons.mp h with rfl | h
      · exact ⟨_, List.mem_cons_self ..⟩
      · obtain ⟨label', hl⟩ := mem_encodeItems label (index + 1) h
        exact ⟨label', List.mem_cons_of_mem _ hl⟩

/-- An encoded member has a well-formed name and an encoded value. -/
theorem mem_encodeMembers (label : Text) {p : Text × Value} : ∀ {members : List (Text × Value)},
    p ∈ members → ∃ r, (p.1, r) ∈ encodeMembers label members ∧
      ∀ t, r = .ok t → WellFormed p.1 ∧ ∃ label' t', encode label' p.2 = .ok t'
  | q :: members, h => by
      rcases List.mem_cons.mp h with rfl | h
      · refine ⟨_, List.mem_cons_self .., fun t ht => ?_⟩
        split at ht
        · cases ht
        · next hname =>
          split at ht
          · cases ht
          · next t' ht' => exact ⟨(validUnicode_eq_ok_iff _).mp hname, _, t', ht'⟩
      · obtain ⟨r, hr, h'⟩ := mem_encodeMembers label h
        exact ⟨r, List.mem_cons_of_mem _ hr, h'⟩

/-- **Only encodable values are encoded.** -/
theorem encodable_of_encode {v : Value} {label t : Text} (h : encode label v = .ok t) :
    Encodable v := by
  have leaf : ∀ {v : Value}, v.children = [] → (SurrogatesPaired v ∧ NumberFinite v) →
      Encodable v := fun hc hv => (everywhere_leaf hc).mpr hv
  induction v generalizing label t with
  | null => exact leaf rfl ⟨trivial, trivial⟩
  | bool b => exact leaf rfl ⟨trivial, trivial⟩
  | num x =>
      rw [encode] at h
      split at h
      · next hx => exact leaf rfl ⟨trivial, hx⟩
      · cases h
  | str value =>
      rw [encode] at h
      split at h
      · cases h
      · next hv => exact leaf rfl ⟨(validUnicode_eq_ok_iff _).mp hv, trivial⟩
  | arr items ih =>
      rw [encode] at h
      split at h
      · cases h
      · next parts hparts =>
        refine encodable_arr.mpr fun v hv => ?_
        obtain ⟨label', hmem⟩ := mem_encodeItems label 0 hv
        rw [sequence_eq_ok hparts] at hmem
        obtain ⟨t', -, ht'⟩ := List.mem_map.mp hmem
        exact ih v hv ht'.symm
  | obj members ih =>
      rw [encode] at h
      split at h
      · cases h
      · next parts hparts =>
        refine encodable_obj.mpr fun p hp => ?_
        obtain ⟨r, hmem, hr⟩ := mem_encodeMembers label hp
        have hperm := (sortMembers_perm _).trans (propertyOrder_perm (encodeMembers label members))
        have hmem' := List.mem_map_of_mem (f := Prod.snd) (hperm.mem_iff.mpr hmem)
        rw [sequence_eq_ok hparts] at hmem'
        obtain ⟨t', -, ht'⟩ := List.mem_map.mp hmem'
        obtain ⟨hname, label', t'', henc⟩ := hr t' ht'.symm
        exact ⟨hname, ih p hp henc⟩

/-- The spec of `canonicalJcs`. -/
theorem canonicalJcs_eq_ok_iff {v : Value} (hp : v.Proper) {t : Text} :
    canonicalJcs v = .ok t ↔ Encodable v ∧ t = render [] [] v.canon := by
  constructor
  · intro h
    have hv := encodable_of_encode h
    rw [canonicalJcs, encode_of_encodable hp hv] at h
    exact ⟨hv, (Except.ok.inj h).symm⟩
  · rintro ⟨hv, rfl⟩
    exact encode_of_encodable hp hv _

theorem encodable_canon_iff {v : Value} : Encodable v.canon ↔ Encodable v := by
  induction v with
  | num x =>
      rw [Encodable, Encodable, canon, everywhere_leaf rfl, everywhere_leaf rfl]
      simp [NumberFinite, SurrogatesPaired]
  | arr items ih =>
      rw [canon, canonItems_eq, encodable_arr, encodable_arr, List.forall_mem_map]
      exact ⟨fun h v hv => (ih v hv).mp (h v hv), fun h v hv => (ih v hv).mpr (h v hv)⟩
  | obj members ih =>
      rw [canon, encodable_obj, encodable_obj, canonMembers_eq]
      simp only [(sortMembers_perm _).mem_iff, List.forall_mem_map]
      exact ⟨fun h p hp => ⟨(h p hp).1, (ih p hp).mp (h p hp).2⟩,
        fun h p hp => ⟨(h p hp).1, (ih p hp).mpr (h p hp).2⟩⟩
  | _ => rfl

/-- **The canonical text of a value is parsed as its canonical form.** -/
theorem parse_canonicalJcs {v : Value} (hp : v.Proper) {t : Text} (h : canonicalJcs v = .ok t) :
    parse t = some v.canon := by
  obtain ⟨hv, rfl⟩ := (canonicalJcs_eq_ok_iff hp).mp h
  have hfinite : Everywhere NumberFinite v := (everywhere_and.mp hv).2
  have : parse (render [] [] v.canon ++ []) = some v.canon :=
    parse_render (by simp) (canon_proper hp) (canon_spelled hfinite) (by simp)
  rwa [List.append_nil] at this

/-- The canonical text of the canonical form is the same text. -/
theorem canonicalJcs_canon {v : Value} (hp : v.Proper) {t : Text} (h : canonicalJcs v = .ok t) :
    canonicalJcs v.canon = .ok t := by
  obtain ⟨hv, rfl⟩ := (canonicalJcs_eq_ok_iff hp).mp h
  exact (canonicalJcs_eq_ok_iff (canon_proper hp)).mpr
    ⟨encodable_canon_iff.mpr hv, by rw [canon_canon hp]⟩

/-- The same data have the same canonical text. -/
theorem canonicalJcs_sameData {v w : Value} (hv : v.Proper) (hw : w.Proper) (h : SameData v w)
    (t : Text) : canonicalJcs v = .ok t ↔ canonicalJcs w = .ok t := by
  rw [canonicalJcs_eq_ok_iff hv, canonicalJcs_eq_ok_iff hw, ← encodable_canon_iff (v := v),
    ← encodable_canon_iff (v := w), h.canon_eq hw]

/-! ## The decoder -/

section Decoder

variable (syntaxMessage : Text → Text)

/-- `parseCanonicalJcs`; `syntaxMessage` is what the engine says of a text
that is not JSON. -/
def parseCanonicalJcs (maximumBytes : Nat) (bytes : Bytes) : Except Failure Value :=
  if bytes.length > maximumBytes then
    .error (failure (js "Canonical JSON exceeds " ++ natText maximumBytes ++ js " bytes."))
  else
    match decodeFatal bytes with
    | none => .error .decodeError
    | some text =>
        match parse text with
        | none => .error (failure (js "Canonical JSON is invalid: " ++ syntaxMessage text))
        | some value =>
            match canonicalJcs value with
            | .error e => .error e
            | .ok canonical =>
                if canonical ≠ text then
                  .error (failure
                    (js "JSON bytes are not in the registered RFC 8785 canonical form."))
                else .ok value

/-- The default of `maximumBytes`. -/
def defaultMaximumBytes : Nat := 16 * 1024 * 1024

variable {syntaxMessage}

/-- The octets of a canonical text carry no byte order mark and decode to it. -/
theorem decodeFatal_canonicalJcs {v : Value} (hp : v.Proper) {t : Text}
    (h : canonicalJcs v = .ok t) : hasBom (textEncode t) = false ∧
      decodeFatal (textEncode t) = some t := by
  obtain ⟨hv, rfl⟩ := (canonicalJcs_eq_ok_iff hp).mp h
  have hbom : hasBom (textEncode (render [] [] v.canon)) = false := by
    rw [← Bool.not_eq_true, hasBom_textEncode_iff]
    rintro ⟨rest, hrest⟩
    have hfinite : Everywhere NumberFinite v := (everywhere_and.mp hv).2
    obtain ⟨u, r, hr, -, -, hu⟩ := render_head [] []
      (canon_spelled hfinite).here
    rw [hr] at hrest
    obtain ⟨rfl, -⟩ := List.cons.inj hrest
    exact absurd hu (by decide)
  exact ⟨hbom, decodeFatal_textEncode_iff.mpr ⟨render_wellFormed (by simp) (by simp) _, hbom⟩⟩

/-- What `parseCanonicalJcs` accepts, and as what: the octets behind an
optional byte order mark are the canonical text of the value. -/
theorem parseCanonicalJcs_eq_ok_iff {maximumBytes : Nat} {bytes : Bytes}
    (hlen : bytes.length ≤ maximumBytes) {value : Value} :
    parseCanonicalJcs syntaxMessage maximumBytes bytes = .ok value ↔
      value.canon = value ∧ value.Proper ∧
        ∃ t, canonicalJcs value = .ok t ∧ stripBom bytes = textEncode t := by
  rw [parseCanonicalJcs, if_neg (by omega)]
  constructor
  · intro h
    split at h
    · cases h
    · next text htext =>
      split at h
      · cases h
      · next v hv =>
        split at h
        · cases h
        · next canonical hcanonical =>
          split at h
          · cases h
          · next heq =>
            cases h
            have heq : canonical = text := not_not.mp heq
            subst heq
            have hp := parse_proper hv
            have hcanon : value.canon = value := by
              rw [parse_canonicalJcs hp hcanonical] at hv
              exact Option.some.inj hv
            exact ⟨hcanon, hp, canonical, hcanonical, (textEncode_of_decodeFatal htext).2.symm⟩
  · rintro ⟨hcanon, hp, t, ht, hstrip⟩
    obtain ⟨hbom, hdecode⟩ := decodeFatal_canonicalJcs hp ht
    have hbytes : decodeFatal bytes = some t := by
      rw [decodeFatal, hstrip, ← stripBom_of_not_hasBom hbom]
      exact hdecode
    simp only [hbytes, parse_canonicalJcs hp ht, hcanon, ht]
    simp

/-- **Which octets are accepted as what.**  On every octet string within the
limit, acceptance as `v` is being the UTF-8 form of `canonicalJcs v`, unless
the octets are such a form behind a byte order mark, and only then does it
fail.  And every text that the encoder writes is parsed back. -/
theorem parseCanonicalJcs_accepts_iff {maximumBytes : Nat} {bytes : Bytes}
    (hlen : bytes.length ≤ maximumBytes) :
    ((∀ v : Value, v.Proper →
        ((∃ r, parseCanonicalJcs syntaxMessage maximumBytes bytes = .ok r ∧ SameData r v) ↔
          ∃ t, canonicalJcs v = .ok t ∧ bytes = textEncode t)) ↔
      ¬ ∃ v t, v.Proper ∧ canonicalJcs v = .ok t ∧ bytes = bom ++ textEncode t) ∧
    ∀ v : Value, v.Proper → Everywhere SurrogatesPaired v → Everywhere NumberFinite v →
      ∃ t r, canonicalJcs v = .ok t ∧ parse t = some r ∧ SameData r v := by
  have accepted : ∀ {v t}, v.Proper → canonicalJcs v = .ok t → stripBom bytes = textEncode t →
      parseCanonicalJcs syntaxMessage maximumBytes bytes = .ok v.canon := by
    intro v t hp ht hstrip
    exact (parseCanonicalJcs_eq_ok_iff hlen).mpr
      ⟨canon_canon hp, canon_proper hp, t, canonicalJcs_canon hp ht, hstrip⟩
  refine ⟨⟨?_, ?_⟩, ?_⟩
  · rintro h ⟨v, t, hp, ht, hbytes⟩
    -- the octets behind the mark are accepted, and are not the form of anything
    have hstrip : stripBom bytes = textEncode t := by rw [hbytes, stripBom_bom_append]
    obtain ⟨t', ht', hbytes'⟩ := (h v hp).mp
      ⟨_, accepted hp ht hstrip, sameData_of_canon_eq (canon_canon hp)⟩
    have hbom := (decodeFatal_canonicalJcs hp ht').1
    rw [← hbytes', hbytes, hasBom_bom_append] at hbom
    cases hbom
  · intro h v hp
    constructor
    · rintro ⟨r, hr, hsame⟩
      obtain ⟨-, hrp, t, ht, hstrip⟩ := (parseCanonicalJcs_eq_ok_iff hlen).mp hr
      have hbom : hasBom bytes = false := by
        by_contra hb
        obtain ⟨rest, hrest⟩ := exists_of_hasBom (by simpa using hb)
        rw [hrest, stripBom_bom_append] at hstrip
        exact h ⟨r, t, hrp, ht, by rw [hrest, hstrip]⟩
      exact ⟨t, (canonicalJcs_sameData hrp hp hsame t).mp ht, by
        rw [← hstrip, stripBom_of_not_hasBom hbom]⟩
    · rintro ⟨t, ht, hbytes⟩
      have hbom := (decodeFatal_canonicalJcs hp ht).1
      exact ⟨_, accepted hp ht (by rw [hbytes, stripBom_of_not_hasBom hbom]),
        sameData_of_canon_eq (canon_canon hp)⟩
  · intro v hp hs hf
    have ht := (canonicalJcs_eq_ok_iff hp).mpr ⟨everywhere_and.mpr ⟨hs, hf⟩, rfl⟩
    exact ⟨_, _, ht, parse_canonicalJcs hp ht, sameData_of_canon_eq (canon_canon hp)⟩

theorem parseCanonicalJcs_accepts_iff_null :
    (textEncode (js "null")).length ≤ defaultMaximumBytes ∧
    ((∀ v : Value, v.Proper →
        ((∃ r, parseCanonicalJcs id defaultMaximumBytes (textEncode (js "null")) = .ok r ∧
            SameData r v) ↔
          ∃ t, canonicalJcs v = .ok t ∧ textEncode (js "null") = textEncode t)) ↔
      ¬ ∃ v t, v.Proper ∧ canonicalJcs v = .ok t ∧
        textEncode (js "null") = bom ++ textEncode t) :=
  ⟨by decide, (parseCanonicalJcs_accepts_iff (by decide)).1⟩

/-- Octets that are accepted and are not the form of any value: `null` behind
a byte order mark. -/
theorem parseCanonicalJcs_mark :
    ¬ ∀ v : Value, v.Proper →
      ((∃ r, parseCanonicalJcs id defaultMaximumBytes
          [0xEF, 0xBB, 0xBF, 0x6E, 0x75, 0x6C, 0x6C] = .ok r ∧ SameData r v) ↔
        ∃ t, canonicalJcs v = .ok t ∧ [0xEF, 0xBB, 0xBF, 0x6E, 0x75, 0x6C, 0x6C] = textEncode t) := by
  intro h
  obtain ⟨t, ht, hbytes⟩ := (h .null ((everywhere_leaf rfl).mpr trivial)).mp ⟨.null, rfl, .null⟩
  obtain rfl : js "null" = t := Except.ok.inj ht
  exact absurd hbytes (by decide)

end Decoder

end Jcs

end SingularityFlow
