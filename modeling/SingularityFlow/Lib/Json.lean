/-
# `JSON.stringify` and `JSON.parse`

The printer follows SerializeJSONProperty: `render gap indent` prints a value
with its members in the order of the list, so that `stringify gap` is
`render` after every object has been put in property order.  The parser is
the JSON grammar by recursive descent, with fuel for the nesting; a name that
is given twice keeps its first place and its last value.

Both are total on strings: `scanString_quote` reads every string back from
inside its quotes, unpaired surrogates included, since they are escaped.
-/
import SingularityFlow.Lib.JsonValue

namespace Ecma

/-! ## Strings -/

/-- The value of a hexadecimal digit, of either case. -/
def hexValue? (u : UInt16) : Option Nat :=
  if 0x30 ≤ u.toNat ∧ u.toNat ≤ 0x39 then some (u.toNat - 0x30)
  else if 0x61 ≤ u.toNat ∧ u.toNat ≤ 0x66 then some (u.toNat - 0x57)
  else if 0x41 ≤ u.toNat ∧ u.toNat ≤ 0x46 then some (u.toNat - 0x37)
  else none

/-- UnicodeEscape: a backslash, `u` and four digits. -/
def escapeUnit (u : UInt16) : Text :=
  [0x5C, 0x75, hexUnit (u.toNat / 0x1000), hexUnit (u.toNat / 0x100 % 0x10),
    hexUnit (u.toNat / 0x10 % 0x10), hexUnit (u.toNat % 0x10)]

/-- A unit that is no surrogate, as it stands inside quotes. -/
def quoteUnit (u : UInt16) : Text :=
  if u = 0x08 then [0x5C, 0x62]
  else if u = 0x09 then [0x5C, 0x74]
  else if u = 0x0A then [0x5C, 0x6E]
  else if u = 0x0C then [0x5C, 0x66]
  else if u = 0x0D then [0x5C, 0x72]
  else if u = 0x22 then [0x5C, 0x22]
  else if u = 0x5C then [0x5C, 0x5C]
  else if u.toNat < 0x20 then escapeUnit u
  else [u]

/-- The inside of a quoted string: a paired surrogate stays, an unpaired one
is escaped. -/
def quoteBody : Text → Text
  | [] => []
  | [u] => if isHighSurrogate u || isLowSurrogate u then escapeUnit u else quoteUnit u
  | u :: v :: rest =>
      if isHighSurrogate u then
        if isLowSurrogate v then u :: v :: quoteBody rest
        else escapeUnit u ++ quoteBody (v :: rest)
      else if isLowSurrogate u then escapeUnit u ++ quoteBody (v :: rest)
      else quoteUnit u ++ quoteBody (v :: rest)

/-- QuoteJSONString. -/
def quote (t : Text) : Text := 0x22 :: (quoteBody t ++ [0x22])

/-- The unit that a one-letter escape stands for. -/
def unescape? (e : UInt16) : Option UInt16 :=
  if e = 0x22 ∨ e = 0x5C ∨ e = 0x2F then some e
  else if e = 0x62 then some 0x08
  else if e = 0x66 then some 0x0C
  else if e = 0x6E then some 0x0A
  else if e = 0x72 then some 0x0D
  else if e = 0x74 then some 0x09
  else none

/-- The four digits of a unicode escape. -/
def hexUnit? (a b c d : UInt16) : Option UInt16 :=
  (hexValue? a).bind fun a => (hexValue? b).bind fun b => (hexValue? c).bind fun c =>
    (hexValue? d).map fun d => (a * 0x1000 + b * 0x100 + c * 0x10 + d).toUInt16

/-- A string of the JSON grammar, from behind its opening quote. -/
def scanString : Text → Option (Text × Text)
  | [] => none
  | u :: rest =>
      if u = 0x22 then some ([], rest)
      else if u = 0x5C then
        match rest with
        | [] => none
        | e :: rest' =>
            if e = 0x75 then
              match rest' with
              | a :: b :: c :: d :: rest'' =>
                  (hexUnit? a b c d).bind fun v =>
                    (scanString rest'').map fun p => (v :: p.1, p.2)
              | _ => none
            else (unescape? e).bind fun v => (scanString rest').map fun p => (v :: p.1, p.2)
      else if u.toNat < 0x20 then none
      else (scanString rest).map fun p => (u :: p.1, p.2)

theorem hexValue?_hexUnit {d : Nat} (h : d < 16) : hexValue? (hexUnit d) = some d := by
  unfold hexUnit
  split
  · rw [hexValue?, toNat_toUInt16 (by omega), if_pos (by omega)]
    congr 1; omega
  · rw [hexValue?, toNat_toUInt16 (by omega), if_neg (by omega), if_pos (by omega)]
    congr 1; omega

theorem hexUnit?_hexUnit (u : UInt16) :
    hexUnit? (hexUnit (u.toNat / 0x1000)) (hexUnit (u.toNat / 0x100 % 0x10))
      (hexUnit (u.toNat / 0x10 % 0x10)) (hexUnit (u.toNat % 0x10)) = some u := by
  have hu := u.toNat_lt
  rw [hexUnit?, hexValue?_hexUnit (by omega), hexValue?_hexUnit (by omega),
    hexValue?_hexUnit (by omega), hexValue?_hexUnit (by omega)]
  simp only [Option.bind_some, Option.map_some, Option.some.injEq]
  refine UInt16.toNat_inj.mp ?_
  rw [toNat_toUInt16 (by omega)]
  omega

theorem scanString_escapeUnit_append (u : UInt16) (t : Text) :
    scanString (escapeUnit u ++ t) = (scanString t).map fun p => (u :: p.1, p.2) := by
  simp [escapeUnit, scanString, hexUnit?_hexUnit]

theorem scanString_plain {u : UInt16} (h₁ : u ≠ 0x22) (h₂ : u ≠ 0x5C) (h₃ : 0x20 ≤ u.toNat)
    (t : Text) : scanString (u :: t) = (scanString t).map fun p => (u :: p.1, p.2) := by
  rw [scanString.eq_def]
  simp only [if_neg h₁, if_neg h₂, if_neg (show ¬ u.toNat < 0x20 by omega)]

theorem scanString_quoteUnit_append (u : UInt16) (t : Text) :
    scanString (quoteUnit u ++ t) = (scanString t).map fun p => (u :: p.1, p.2) := by
  have he : ∀ e v : UInt16, e ≠ 0x75 → unescape? e = some v →
      scanString ([0x5C, e] ++ t) = (scanString t).map fun p => (v :: p.1, p.2) := by
    intro e v h₁ h₂
    rw [scanString.eq_def]
    simp [h₁, h₂]
  unfold quoteUnit
  split_ifs with h₁ h₂ h₃ h₄ h₅ h₆ h₇ h₈
  · rw [h₁]; exact he _ _ (by decide) (by decide)
  · rw [h₂]; exact he _ _ (by decide) (by decide)
  · rw [h₃]; exact he _ _ (by decide) (by decide)
  · rw [h₄]; exact he _ _ (by decide) (by decide)
  · rw [h₅]; exact he _ _ (by decide) (by decide)
  · rw [h₆]; exact he _ _ (by decide) (by decide)
  · rw [h₇]; exact he _ _ (by decide) (by decide)
  · exact scanString_escapeUnit_append u t
  · exact scanString_plain h₆ h₇ (by omega) t

theorem surrogate_plain {u : UInt16} (h : isHighSurrogate u = true ∨ isLowSurrogate u = true) :
    u ≠ 0x22 ∧ u ≠ 0x5C ∧ 0x20 ≤ u.toNat := by
  simp only [isHighSurrogate, isLowSurrogate, Bool.and_eq_true, decide_eq_true_eq] at h
  refine ⟨?_, ?_, by omega⟩ <;> rintro rfl <;> revert h <;> decide

/-- Every string is scanned back from inside its quotes, unpaired surrogates
included. -/
theorem scanString_quoteBody_append : ∀ (t rest : Text),
    scanString (quoteBody t ++ rest) = (scanString rest).map fun p => (t ++ p.1, p.2)
  | [], rest => by simp [quoteBody]
  | [u], rest => by
      unfold quoteBody
      split
      · rw [scanString_escapeUnit_append]; rfl
      · rw [scanString_quoteUnit_append]; rfl
  | u :: v :: t, rest => by
      have ih := scanString_quoteBody_append (v :: t) rest
      unfold quoteBody
      split_ifs with h₁ h₂ h₃
      · obtain ⟨a₁, a₂, a₃⟩ := surrogate_plain (Or.inl h₁)
        obtain ⟨b₁, b₂, b₃⟩ := surrogate_plain (Or.inr h₂)
        rw [List.cons_append, List.cons_append, scanString_plain a₁ a₂ a₃,
          scanString_plain b₁ b₂ b₃, scanString_quoteBody_append t rest]
        simp [Function.comp_def]
      · rw [List.append_assoc, scanString_escapeUnit_append, ih]
        simp [Function.comp_def]
      · rw [List.append_assoc, scanString_escapeUnit_append, ih]
        simp [Function.comp_def]
      · rw [List.append_assoc, scanString_quoteUnit_append, ih]
        simp [Function.comp_def]

/-- **A quoted string is scanned back**, whatever follows its closing quote. -/
theorem scanString_quote (t rest : Text) :
    scanString (quoteBody t ++ 0x22 :: rest) = some (t, rest) := by
  rw [scanString_quoteBody_append, scanString.eq_def]
  simp

/-! ## Printing -/

/-- The parts with a separator between them. -/
def joinWith (sep : Text) : List Text → Text
  | [] => []
  | [t] => t
  | t :: rest => t ++ sep ++ joinWith sep rest

/-- A line break and an indent, unless there is no gap. -/
def newline (gap indent : Text) : Text := if gap = [] then [] else 0x0A :: indent

/-- The parts of an array or an object between their brackets. -/
def bracket (left right : UInt16) (gap indent : Text) (parts : List Text) : Text :=
  if parts = [] then [left, right]
  else
    left :: (newline gap (indent ++ gap)
      ++ joinWith (0x2C :: newline gap (indent ++ gap)) parts ++ newline gap indent ++ [right])

mutual

/-- SerializeJSONProperty, with the members of an object in the order of the list. -/
def render (gap indent : Text) : Value → Text
  | .null => js "null"
  | .bool b => if b then js "true" else js "false"
  | .num x => if x.isFinite then x.text else js "null"
  | .str t => quote t
  | .arr items => bracket 0x5B 0x5D gap indent (renderItems gap (indent ++ gap) items)
  | .obj members => bracket 0x7B 0x7D gap indent (renderMembers gap (indent ++ gap) members)

def renderItems (gap indent : Text) : List Value → List Text
  | [] => []
  | v :: rest => render gap indent v :: renderItems gap indent rest

def renderMembers (gap indent : Text) : List (Text × Value) → List Text
  | [] => []
  | (name, v) :: rest =>
      (quote name ++ 0x3A :: ((if gap = [] then [] else [0x20]) ++ render gap indent v))
        :: renderMembers gap indent rest

end

mutual

/-- The value with the members of every object in property order. -/
def ordered : Value → Value
  | .arr items => .arr (orderedItems items)
  | .obj members => .obj (propertyOrder (orderedMembers members))
  | v => v

def orderedItems : List Value → List Value
  | [] => []
  | v :: rest => ordered v :: orderedItems rest

def orderedMembers : List (Text × Value) → List (Text × Value)
  | [] => []
  | (name, v) :: rest => (name, ordered v) :: orderedMembers rest

end

/-- `JSON.stringify(v, null, gap)`. -/
def stringify (gap : Text) (v : Value) : Text := render gap [] (ordered v)

/-! ## Parsing -/

def isSpace (u : UInt16) : Bool := u = 0x09 || u = 0x0A || u = 0x0D || u = 0x20

def skipSpace (t : Text) : Text := t.dropWhile isSpace

/-- The rest of a text behind a word. -/
def scanWord (word : Text) (v : Value) (t : Text) : Option (Value × Text) :=
  if word.isPrefixOf t then some (v, t.drop word.length) else none

/-- CreateDataProperty: a name keeps its first place and its last value. -/
def define (l : List (Text × Value)) (name : Text) (v : Value) : List (Text × Value) :=
  if name ∈ l.map Prod.fst then l.map fun p => if p.1 = name then (name, v) else p
  else l ++ [(name, v)]

/-- The members of the object that a list of members in the text builds. -/
def collapse (l : List (Text × Value)) : List (Text × Value) :=
  l.foldl (fun acc p => define acc p.1 p.2) []

section Define

variable {l rest : List (Text × Value)} {name other : Text} {v w : Value}

theorem define_cons_self {q : Text × Value} (h : q.1 = name) (hl : ((q :: l).map Prod.fst).Nodup) :
    define (q :: l) name v = (name, v) :: l := by
  have hmem : name ∈ (q :: l).map Prod.fst := by simp [h]
  have hkeep : ∀ p ∈ l, (if p.1 = name then (name, v) else p) = p := by
    intro p hp
    refine if_neg fun heq => ?_
    rw [List.map_cons, List.nodup_cons, h] at hl
    exact hl.1 (heq ▸ List.mem_map_of_mem hp)
  rw [define, if_pos hmem, List.map_cons, if_pos h]
  congr 1
  exact (List.map_congr_left hkeep).trans (List.map_id l)

theorem define_cons_of_ne {q : Text × Value} (h : q.1 ≠ name) :
    define (q :: l) name v = q :: define l name v := by
  have hmem : name ∈ (q :: l).map Prod.fst ↔ name ∈ l.map Prod.fst := by
    rw [List.map_cons, List.mem_cons]
    exact ⟨fun hq => hq.resolve_left fun heq => h heq.symm, .inr⟩
  unfold define
  by_cases hname : name ∈ l.map Prod.fst
  · rw [if_pos (hmem.mpr hname), if_pos hname, List.map_cons, if_neg h]
  · rw [if_neg fun hq => hname (hmem.mp hq), if_neg hname, List.cons_append]

/-- Up to order, setting a member puts it beside the members of other names. -/
theorem define_perm (hl : (l.map Prod.fst).Nodup) :
    (define l name v).Perm ((name, v) :: l.filter fun p => p.1 ≠ name) := by
  induction l with
  | nil => simp [define]
  | cons q l ih =>
      have hq := hl
      rw [List.map_cons, List.nodup_cons] at hl
      by_cases h : q.1 = name
      · have hkeep : (l.filter fun p => p.1 ≠ name) = l := by
          refine List.filter_eq_self.mpr fun p hp => ?_
          simp only [ne_eq, decide_eq_true_eq]
          rintro rfl
          exact hl.1 (h ▸ List.mem_map_of_mem hp)
        rw [define_cons_self h hq, List.filter_cons_of_neg (by simp [h]), hkeep]
      · rw [define_cons_of_ne h, List.filter_cons_of_pos (by simp [h])]
        exact ((ih hl.2).cons q).trans (List.Perm.swap _ _ _)

theorem define_nodup (hl : (l.map Prod.fst).Nodup) :
    ((define l name v).map Prod.fst).Nodup := by
  rw [((define_perm hl).map Prod.fst).nodup_iff, List.map_cons, List.nodup_cons]
  refine ⟨?_, hl.sublist (List.filter_sublist.map _)⟩
  intro h
  obtain ⟨p, hp, hname⟩ := List.mem_map.mp h
  simp [hname] at hp

/-- A member of another name stays beside the one that is set. -/
theorem define_perm_cons (hl : (l.map Prod.fst).Nodup) (h : l.Perm ((other, w) :: rest))
    (hne : other ≠ name) :
    (define l name v).Perm ((other, w) :: (name, v) :: rest.filter fun p => p.1 ≠ name) := by
  refine (define_perm hl).trans (((h.filter _).cons _).trans ?_)
  rw [List.filter_cons_of_pos (by simp [hne])]
  exact List.Perm.swap _ _ _

theorem lookup_define_self (l : List (Text × Value)) (name : Text) (v : Value) :
    lookup name (define l name v) = some v := by
  unfold define
  split
  · next hmem =>
    induction l with
    | nil => cases hmem
    | cons q l ih =>
        by_cases hq : q.1 = name
        · simp [lookup, hq]
        · rw [List.map_cons, List.mem_cons] at hmem
          simpa [lookup, hq] using ih (hmem.resolve_left fun h => hq h.symm)
  · next hmem =>
    have hnone : l.find? (fun p => p.1 = name) = none := by
      refine List.find?_eq_none.mpr fun p hp heq => hmem ?_
      exact List.mem_map.mpr ⟨p, hp, by simpa using heq⟩
    simp [lookup, List.find?_append, hnone]

theorem lookup_define_of_ne {l : List (Text × Value)} {name other : Text} {v : Value}
    (h : other ≠ name) : lookup other (define l name v) = lookup other l := by
  unfold define
  split
  · clear * - h
    induction l with
    | nil => rfl
    | cons q l ih =>
        by_cases hq : q.1 = name
        · have hname : ¬ name = other := fun heq => h heq.symm
          simpa [lookup, hq, hname] using ih
        · by_cases ho : q.1 = other
          · simp [lookup, ho, h]
          · simpa [lookup, hq, ho] using ih
  · simp [lookup, List.find?_append, h.symm]

end Define

mutual

/-- A value of the JSON grammar, with `n` for fuel. -/
def parseValue : Nat → Text → Option (Value × Text)
  | 0, _ => none
  | n + 1, t =>
      match skipSpace t with
      | [] => none
      | u :: rest =>
          if u = 0x7B then
            match skipSpace rest with
            | 0x7D :: rest' => some (.obj [], rest')
            | rest' => (parseMembers n rest').map fun p => (.obj (collapse p.1), p.2)
          else if u = 0x5B then
            match skipSpace rest with
            | 0x5D :: rest' => some (.arr [], rest')
            | rest' => (parseItems n rest').map fun p => (.arr p.1, p.2)
          else if u = 0x22 then (scanString rest).map fun p => (.str p.1, p.2)
          else if u = 0x6E then scanWord (js "null") .null (u :: rest)
          else if u = 0x74 then scanWord (js "true") (.bool true) (u :: rest)
          else if u = 0x66 then scanWord (js "false") (.bool false) (u :: rest)
          else (scanNumber (u :: rest)).map fun p => (.num p.1, p.2)

/-- The items of an array, through the closing bracket. -/
def parseItems : Nat → Text → Option (List Value × Text)
  | 0, _ => none
  | n + 1, t =>
      match parseValue n t with
      | none => none
      | some (v, t') =>
          match skipSpace t' with
          | 0x2C :: rest => (parseItems n rest).map fun p => (v :: p.1, p.2)
          | 0x5D :: rest => some ([v], rest)
          | _ => none

/-- The members of an object, through the closing brace. -/
def parseMembers : Nat → Text → Option (List (Text × Value) × Text)
  | 0, _ => none
  | n + 1, t =>
      match skipSpace t with
      | 0x22 :: rest =>
          match scanString rest with
          | none => none
          | some (name, t₁) =>
              match skipSpace t₁ with
              | 0x3A :: t₂ =>
                  match parseValue n t₂ with
                  | none => none
                  | some (v, t₃) =>
                      match skipSpace t₃ with
                      | 0x2C :: t₄ => (parseMembers n t₄).map fun p => ((name, v) :: p.1, p.2)
                      | 0x7D :: t₄ => some ([(name, v)], t₄)
                      | _ => none
              | _ => none
      | _ => none

end

/-- `JSON.parse`; nesting costs two characters for each level of it, so twice
the length is fuel enough. -/
def parse (t : Text) : Option Value :=
  match parseValue (2 * t.length + 1) t with
  | some (v, rest) => if skipSpace rest = [] then some v else none
  | none => none

end Ecma
