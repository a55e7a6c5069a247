/-
# The round trip of JSON text

What was printed, with any white-space gap, is parsed back as the same value
in the same order (`parse_render`), so parsing what `JSON.stringify` printed
gives the value in property order (`parse_stringify`).  The proof is by
induction on the value, one lemma for arrays and one for objects
(`readsBack_arr`, `readsBack_obj`), each an induction on the parts.

In the other direction only what later proofs need is shown of the parser:
the objects it builds have unique names (`parse_proper`).
-/
import SingularityFlow.Lib.Json

namespace Ecma

/-! ## The round trip -/

open Value

theorem skipSpace_append {ws : Text} (h : ∀ u ∈ ws, isSpace u = true) (t : Text) :
    skipSpace (ws ++ t) = skipSpace t :=
  List.dropWhile_append_of_pos h

theorem skipSpace_cons {u : UInt16} (h : isSpace u = false) (t : Text) :
    skipSpace (u :: t) = u :: t := by
  simp [skipSpace, h]

theorem parseValue_append {ws : Text} (h : ∀ u ∈ ws, isSpace u = true) (n : Nat) (t : Text) :
    parseValue n (ws ++ t) = parseValue n t := by
  cases n with
  | zero => rfl
  | succ n => rw [parseValue, parseValue, skipSpace_append h]

/-- A number begins with a sign or a digit. -/
theorem scanNumber_head {t : Text} {r : Number × Text} (h : scanNumber t = some r) :
    ∃ u rest, t = u :: rest ∧ (u = 0x2D ∨ isDigit u = true) := by
  cases t with
  | nil => cases h
  | cons u rest =>
      refine ⟨u, rest, rfl, ?_⟩
      by_cases hu : u = 0x2D
      · exact Or.inl hu
      · rw [scanNumber, if_neg hu, scanUnsigned] at h
        split_ifs at h with h₁ h₂
        · subst h₁; exact Or.inr rfl
        · exact Or.inr h₂

theorem numberText_head {x : Number} (hx : x.isFinite = true) :
    ∃ u rest, x.text = u :: rest ∧ (u = 0x2D ∨ isDigit u = true) := by
  have h := scanNumber_text hx [] trivial
  rw [List.append_nil] at h
  exact scanNumber_head h

/-- The first unit of a number begins none of the other values. -/
theorem numberUnit_ne {u : UInt16} (h : u = 0x2D ∨ isDigit u = true) :
    isSpace u = false ∧ u ≠ 0x7B ∧ u ≠ 0x5B ∧ u ≠ 0x22 ∧ u ≠ 0x6E ∧ u ≠ 0x74 ∧ u ≠ 0x66
      ∧ u ≠ 0x5D := by
  have hne : ∀ v : UInt16, v ≠ 0x2D → isDigit v = false → u ≠ v := by
    rintro v h₁ h₂ rfl
    rcases h with h | h
    · exact h₁ h
    · rw [h₂] at h; cases h
  refine ⟨?_, hne _ (by decide) (by decide), hne _ (by decide) (by decide),
    hne _ (by decide) (by decide), hne _ (by decide) (by decide), hne _ (by decide) (by decide),
    hne _ (by decide) (by decide), hne _ (by decide) (by decide)⟩
  simp only [isSpace, Bool.or_eq_false_iff, decide_eq_false_iff_not]
  exact ⟨⟨⟨hne _ (by decide) (by decide), hne _ (by decide) (by decide)⟩,
    hne _ (by decide) (by decide)⟩, hne _ (by decide) (by decide)⟩

/-- What a printed value begins with. -/
theorem render_head (gap indent : Text) {v : Value} (hv : NumberSpelled v) :
    ∃ u rest, render gap indent v = u :: rest ∧ isSpace u = false ∧ u ≠ 0x5D ∧ u.toNat < 0x80 := by
  have hb : ∀ left right parts, left = 0x5B ∨ left = 0x7B →
      ∃ u rest, bracket left right gap indent parts = u :: rest ∧ isSpace u = false ∧ u ≠ 0x5D
        ∧ u.toNat < 0x80 := by
    rintro left right parts hl
    have : isSpace left = false ∧ left ≠ 0x5D ∧ left.toNat < 0x80 := by
      rcases hl with rfl | rfl <;> decide
    unfold bracket
    split
    · exact ⟨_, _, rfl, this⟩
    · exact ⟨_, _, rfl, this⟩
  cases v with
  | null => exact ⟨_, _, rfl, by decide, by decide, by decide⟩
  | bool b => cases b <;> exact ⟨_, _, rfl, by decide, by decide, by decide⟩
  | num x =>
      obtain ⟨u, rest, h, hu⟩ := numberText_head hv.1
      have := numberUnit_ne hu
      exact ⟨u, rest, by rw [render, if_pos hv.1, h], this.1, by tauto,
        x.text_ascii u (by rw [h]; exact List.mem_cons_self ..)⟩
  | str t => exact ⟨_, _, rfl, by decide, by decide, by decide⟩
  | arr items => exact hb _ _ _ (Or.inl rfl)
  | obj members => exact hb _ _ _ (Or.inr rfl)

/-- Distinct names are collected as they stand. -/
theorem collapse_of_nodup {l : List (Text × Value)} (h : (l.map Prod.fst).Nodup) :
    collapse l = l := by
  have key : ∀ (l acc : List (Text × Value)), ((acc ++ l).map Prod.fst).Nodup →
      l.foldl (fun acc p => define acc p.1 p.2) acc = acc ++ l := by
    intro l
    induction l with
    | nil => simp
    | cons p l ih =>
        intro acc hacc
        have hp : p.1 ∉ acc.map Prod.fst := by
          rw [List.map_append, List.map_cons] at hacc
          intro hc
          exact (List.nodup_append.mp hacc).2.2 _ hc _ (List.mem_cons_self ..) rfl
        rw [List.foldl_cons, define, if_neg hp, ih _ (by simpa using hacc)]
        simp
  exact key l [] (by simpa using h)

section RoundTrip

variable {gap : Text}

/-- A value is read back from its text, at any indent and before any text
that cannot continue it. -/
def ReadsBack (gap : Text) (v : Value) : Prop :=
  ∀ (indent rest : Text) (n : Nat), (∀ u ∈ indent, isSpace u = true) → NumberEnd rest →
    2 * (render gap indent v).length ≤ n →
    parseValue n (render gap indent v ++ rest) = some (v, rest)

theorem newline_isSpace (gap : Text) {indent : Text} (h : ∀ u ∈ indent, isSpace u = true) :
    ∀ u ∈ newline gap indent, isSpace u = true := by
  intro u hu
  unfold newline at hu
  split at hu
  · cases hu
  · rcases List.mem_cons.mp hu with rfl | hu
    · rfl
    · exact h u hu

theorem numberEnd_of_isSpace (ws : Text) (h : ∀ u ∈ ws, isSpace u = true) {u : UInt16}
    (hu : u = 0x2C ∨ u = 0x5D ∨ u = 0x7D) (t : Text) : NumberEnd (ws ++ u :: t) := by
  have hs : ∀ v : UInt16, isSpace v = true → isDigit v = false ∧ v ≠ 0x2E ∧ v ≠ 0x65 ∧ v ≠ 0x45 := by
    intro v hv
    simp only [isSpace, Bool.or_eq_true, decide_eq_true_eq] at hv
    rcases hv with ((rfl | rfl) | rfl) | rfl <;> decide
  cases ws with
  | nil => rcases hu with rfl | rfl | rfl <;> exact ⟨by decide, by decide, by decide, by decide⟩
  | cons v ws => exact hs v (h v (List.mem_cons_self ..))

/-- The items of an array, behind any white space. -/
theorem parseItems_render {indent close : Text} (hi : ∀ u ∈ indent, isSpace u = true)
    (hc : ∀ u ∈ close, isSpace u = true) (rest : Text) :
    ∀ (l : List Value), l ≠ [] → (∀ v ∈ l, ReadsBack gap v) → ∀ (n : Nat) (ws : Text),
      (∀ u ∈ ws, isSpace u = true) →
      2 * (joinWith (0x2C :: newline gap indent) (renderItems gap indent l)).length + 1 ≤ n →
      parseItems n (ws ++ (joinWith (0x2C :: newline gap indent) (renderItems gap indent l)
        ++ (close ++ 0x5D :: rest))) = some (l, rest)
  | [], hne, _, _, _, _, _ => absurd rfl hne
  | [v], _, hl, n + 1, ws, hws, hn => by
      simp only [renderItems, joinWith] at hn ⊢
      have hv := hl v (by simp) indent (close ++ 0x5D :: rest) n hi
        (numberEnd_of_isSpace _ hc (by simp) _) (by omega)
      rw [parseItems, parseValue_append hws, hv]
      simp [skipSpace_append hc, skipSpace_cons (show isSpace 0x5D = false from rfl)]
  | v :: w :: l, _, hl, n + 1, ws, hws, hn => by
      simp only [renderItems, joinWith, List.length_append, List.length_cons] at hn
      have hv := hl v (by simp) indent
        (0x2C :: (newline gap indent ++ (joinWith (0x2C :: newline gap indent)
          (renderItems gap indent (w :: l)) ++ (close ++ 0x5D :: rest)))) n hi
        (numberEnd_of_isSpace [] (by simp) (by simp) _) (by omega)
      have ih := parseItems_render hi hc rest (w :: l) (by simp)
        (fun x hx => hl x (List.mem_cons_of_mem _ hx)) n (newline gap indent) (newline_isSpace gap hi)
        (by simp only [renderItems]; omega)
      simp only [renderItems, joinWith, List.append_assoc, List.cons_append] at hv ih ⊢
      rw [parseItems, parseValue_append hws, hv]
      simp only [skipSpace_cons (show isSpace 0x2C = false from rfl)]
      rw [ih]
      rfl

/-- The members of an object, behind any white space. -/
theorem parseMembers_render {indent close : Text} (hi : ∀ u ∈ indent, isSpace u = true)
    (hc : ∀ u ∈ close, isSpace u = true) (rest : Text) :
    ∀ (l : List (Text × Value)), l ≠ [] → (∀ p ∈ l, ReadsBack gap p.2) → ∀ (n : Nat) (ws : Text),
      (∀ u ∈ ws, isSpace u = true) →
      2 * (joinWith (0x2C :: newline gap indent) (renderMembers gap indent l)).length + 1 ≤ n →
      parseMembers n (ws ++ (joinWith (0x2C :: newline gap indent) (renderMembers gap indent l)
        ++ (close ++ 0x7D :: rest))) = some (l, rest)
  | [], hne, _, _, _, _, _ => absurd rfl hne
  | (name, v) :: l, _, hl, 0, ws, hws, hn => by omega
  | (name, v) :: l, _, hl, n + 1, ws, hws, hn => by
      have hv : ReadsBack gap v := hl (name, v) (by simp)
      have hcolon : ∀ u ∈ (if gap = [] then [] else [0x20] : Text), isSpace u = true := by
        split <;> simp [isSpace]
      -- what follows the value is the closing brace or a comma
      cases l with
      | nil =>
          simp only [renderMembers, joinWith, quote, List.length_append, List.length_cons] at hn
          have hv := hv indent (close ++ 0x7D :: rest) n hi
            (numberEnd_of_isSpace _ hc (by simp) _) (by omega)
          simp only [renderMembers, joinWith, quote, List.append_assoc, List.cons_append,
            List.nil_append] at hv ⊢
          rw [parseMembers, skipSpace_append hws, skipSpace_cons rfl]
          simp only [scanString_quote, skipSpace_cons (show isSpace 0x3A = false from rfl),
            parseValue_append hcolon, hv, skipSpace_append hc,
            skipSpace_cons (show isSpace 0x7D = false from rfl)]
      | cons q l =>
          simp only [renderMembers, joinWith, quote, List.length_append, List.length_cons] at hn
          have hv := hv indent
            (0x2C :: (newline gap indent ++ (joinWith (0x2C :: newline gap indent)
              (renderMembers gap indent (q :: l)) ++ (close ++ 0x7D :: rest)))) n hi
            (numberEnd_of_isSpace [] (by simp) (by simp) _) (by omega)
          have ih := parseMembers_render hi hc rest (q :: l) (by simp)
            (fun x hx => hl x (List.mem_cons_of_mem _ hx)) n (newline gap indent)
            (newline_isSpace gap hi)
            (by simp only [renderMembers, quote, List.length_append, List.length_cons]; omega)
          simp only [renderMembers, joinWith, quote, List.append_assoc, List.cons_append,
            List.nil_append] at hv ih ⊢
          rw [parseMembers, skipSpace_append hws, skipSpace_cons rfl]
          simp only [scanString_quote, skipSpace_cons (show isSpace 0x3A = false from rfl),
            parseValue_append hcolon, hv, skipSpace_cons (show isSpace 0x2C = false from rfl)]
          rw [ih]
          rfl

theorem bracket_length {left right : UInt16} {indent : Text} {parts : List Text} (h : parts ≠ []) :
    (bracket left right gap indent parts).length
      = 2 + (newline gap (indent ++ gap)).length
        + (joinWith (0x2C :: newline gap (indent ++ gap)) parts).length
        + (newline gap indent).length := by
  simp only [bracket, if_neg h, List.length_cons, List.length_append, List.length_nil]
  omega

theorem bracket_append {left right : UInt16} {indent : Text} {parts : List Text} (h : parts ≠ [])
    (rest : Text) :
    bracket left right gap indent parts ++ rest
      = left :: (newline gap (indent ++ gap)
        ++ (joinWith (0x2C :: newline gap (indent ++ gap)) parts
          ++ (newline gap indent ++ right :: rest))) := by
  simp [bracket, if_neg h]

/-- The text of a joined list begins as its first part does. -/
theorem joinWith_head (sep : Text) {u : UInt16} {t : Text} (parts : List Text) :
    ∃ r, joinWith sep ((u :: t) :: parts) = u :: r := by
  cases parts with
  | nil => exact ⟨t, rfl⟩
  | cons p parts => exact ⟨t ++ sep ++ joinWith sep (p :: parts), by simp [joinWith]⟩

/-- An empty bracket, or one whose first part is not its closing unit. -/
theorem parseValue_bracket {n : Nat} {t rest : Text} {u : UInt16} (hu : isSpace u = false)
    (ht : skipSpace t = u :: rest) :
    parseValue (n + 1) (0x5B :: t)
        = (if u = 0x5D then some (.arr [], rest)
          else (parseItems n (u :: rest)).map fun p => (.arr p.1, p.2)) ∧
      parseValue (n + 1) (0x7B :: t)
        = (if u = 0x7D then some (.obj [], rest)
          else (parseMembers n (u :: rest)).map fun p => (.obj (collapse p.1), p.2)) := by
  have h₁ : skipSpace (0x5B :: t) = 0x5B :: t := skipSpace_cons rfl t
  have h₂ : skipSpace (0x7B :: t) = 0x7B :: t := skipSpace_cons rfl t
  constructor
  · rw [parseValue, h₁]
    simp only [ht]
    rw [if_neg (by decide), if_pos trivial]
    by_cases h : u = 0x5D
    · subst h; rfl
    · rw [if_neg h]
      split
      · simp_all
      · rfl
  · rw [parseValue, h₂]
    simp only [ht]
    rw [if_pos trivial]
    by_cases h : u = 0x7D
    · subst h; rfl
    · rw [if_neg h]
      split
      · simp_all
      · rfl

/-- An array is read back when its items are. -/
theorem readsBack_arr (hg : ∀ u ∈ gap, isSpace u = true) {l : List Value}
    (hs : ∀ v ∈ l, NumberSpelled v) (hl : ∀ v ∈ l, ReadsBack gap v) :
    ReadsBack gap (.arr l) := by
  intro indent rest n hi hr hn
  have hi' : ∀ u ∈ indent ++ gap, isSpace u = true := fun u hu =>
    (List.mem_append.mp hu).elim (hi u) (hg u)
  cases l with
  | nil =>
      obtain ⟨n, rfl⟩ : ∃ m, n = m + 1 := ⟨n - 1, by simp [render, bracket, renderItems] at hn; omega⟩
      have := (parseValue_bracket (n := n) (t := 0x5D :: rest) (u := 0x5D) rfl
        (skipSpace_cons rfl rest)).1
      simpa [render, renderItems, bracket] using this
  | cons v l =>
      have hne : renderItems gap (indent ++ gap) (v :: l) ≠ [] := by simp [renderItems]
      rw [render, bracket_length hne] at hn
      obtain ⟨n, rfl⟩ : ∃ m, n = m + 1 := ⟨n - 1, by omega⟩
      obtain ⟨u, t, ht, hu, hclose, -⟩ := render_head gap (indent ++ gap)
        (hs v (by simp))
      obtain ⟨r, hr'⟩ := joinWith_head (0x2C :: newline gap (indent ++ gap)) (u := u)
        (t := t) (renderItems gap (indent ++ gap) l)
      have hitems := parseItems_render hi' (newline_isSpace gap hi) rest
        (v :: l) (by simp) hl n [] (by simp) (by omega)
      have hskip : skipSpace (newline gap (indent ++ gap)
          ++ (joinWith (0x2C :: newline gap (indent ++ gap))
            (renderItems gap (indent ++ gap) (v :: l)) ++ (newline gap indent ++ 0x5D :: rest)))
          = u :: (r ++ (newline gap indent ++ 0x5D :: rest)) := by
        rw [skipSpace_append (newline_isSpace gap hi'), renderItems, ht, hr', List.cons_append,
          skipSpace_cons hu]
      rw [List.nil_append, renderItems, ht, hr', List.cons_append] at hitems
      rw [render, bracket_append hne, (parseValue_bracket hu hskip).1, if_neg hclose, hitems]
      rfl

/-- An object is read back when the values of its members are. -/
theorem readsBack_obj (hg : ∀ u ∈ gap, isSpace u = true) {l : List (Text × Value)}
    (hn : (l.map Prod.fst).Nodup) (hl : ∀ p ∈ l, ReadsBack gap p.2) : ReadsBack gap (.obj l) := by
  have hcollapse := collapse_of_nodup hn
  intro indent rest n hi hr hn
  have hi' : ∀ u ∈ indent ++ gap, isSpace u = true := fun u hu =>
    (List.mem_append.mp hu).elim (hi u) (hg u)
  cases l with
  | nil =>
      obtain ⟨n, rfl⟩ : ∃ m, n = m + 1 :=
        ⟨n - 1, by simp [render, bracket, renderMembers] at hn; omega⟩
      have := (parseValue_bracket (n := n) (t := 0x7D :: rest) (u := 0x7D) rfl
        (skipSpace_cons rfl rest)).2
      simpa [render, renderMembers, bracket] using this
  | cons p l =>
      have hne : renderMembers gap (indent ++ gap) (p :: l) ≠ [] := by simp [renderMembers]
      rw [render, bracket_length hne] at hn
      obtain ⟨n, rfl⟩ : ∃ m, n = m + 1 := ⟨n - 1, by omega⟩
      obtain ⟨r, hr'⟩ : ∃ r, joinWith (0x2C :: newline gap (indent ++ gap))
          (renderMembers gap (indent ++ gap) (p :: l)) = 0x22 :: r := joinWith_head _ _
      have hmembers := parseMembers_render hi' (newline_isSpace gap hi) rest
        (p :: l) (by simp) hl n [] (by simp) (by omega)
      have hskip : skipSpace (newline gap (indent ++ gap)
          ++ (joinWith (0x2C :: newline gap (indent ++ gap))
            (renderMembers gap (indent ++ gap) (p :: l)) ++ (newline gap indent ++ 0x7D :: rest)))
          = 0x22 :: (r ++ (newline gap indent ++ 0x7D :: rest)) := by
        rw [skipSpace_append (newline_isSpace gap hi'), hr', List.cons_append, skipSpace_cons rfl]
      rw [List.nil_append, hr', List.cons_append] at hmembers
      rw [render, bracket_append hne, (parseValue_bracket rfl hskip).2, if_neg (by decide), hmembers,
        Option.map_some, hcollapse]

theorem words : js "null" = [0x6E, 0x75, 0x6C, 0x6C] ∧ js "true" = [0x74, 0x72, 0x75, 0x65] ∧
    js "false" = [0x66, 0x61, 0x6C, 0x73, 0x65] := by decide

/-- **Every proper value with spelled numbers is read back from its text.** -/
theorem readsBack (hg : ∀ u ∈ gap, isSpace u = true) {v : Value} (hp : v.Proper)
    (hs : Everywhere NumberSpelled v) : ReadsBack gap v := by
  induction v with
  | arr l ih =>
      have hs' := (everywhere_arr.mp hs).2
      exact readsBack_arr hg (fun v hv => (hs' v hv).here) fun v hv =>
        ih v hv ((everywhere_arr.mp hp).2 v hv) (hs' v hv)
  | obj l ih =>
      obtain ⟨hn, hp'⟩ := everywhere_obj.mp hp
      exact readsBack_obj hg hn fun p hp => ih p hp (hp' p hp) ((everywhere_obj.mp hs).2 p hp)
  | num x =>
      intro indent rest n _ hr hn
      obtain ⟨hfin, hzero⟩ := hs.here
      have hscan := scanNumber_text hfin rest hr
      obtain ⟨u, t, ht, hu⟩ := numberText_head hfin
      obtain ⟨h₁, h₂, h₃, h₄, h₅, h₆, h₇, -⟩ := numberUnit_ne hu
      rw [render, if_pos hfin, ht, List.length_cons] at hn
      obtain ⟨n, rfl⟩ : ∃ m, n = m + 1 := ⟨n - 1, by omega⟩
      rw [ht, List.cons_append] at hscan
      rw [render, if_pos hfin, ht, List.cons_append, parseValue, skipSpace_cons h₁]
      simp only [if_neg h₂, if_neg h₃, if_neg h₄, if_neg h₅, if_neg h₆, if_neg h₇, hscan, hzero,
        Option.map_some]
  | str t =>
      intro indent rest n _ _ hn
      rw [render, quote, List.length_cons] at hn
      obtain ⟨n, rfl⟩ : ∃ m, n = m + 1 := ⟨n - 1, by omega⟩
      have hscan := scanString_quote t rest
      simp only [render, quote, List.cons_append, List.append_assoc, List.nil_append]
      rw [parseValue, skipSpace_cons rfl]
      simp [hscan]
  | null =>
      intro indent rest n _ _ hn
      simp only [render, words.1] at hn ⊢
      obtain ⟨n, rfl⟩ : ∃ m, n = m + 1 := ⟨n - 1, by simp at hn; omega⟩
      simp [parseValue, skipSpace, isSpace, words, scanWord]
  | bool b =>
      intro indent rest n _ _ hn
      cases b <;> simp only [render, words, Bool.false_eq_true, if_true, if_false] at hn ⊢
      all_goals
        obtain ⟨n, rfl⟩ : ∃ m, n = m + 1 := ⟨n - 1, by simp at hn; omega⟩
        simp [parseValue, skipSpace, isSpace, words, scanWord]

end RoundTrip

/-- **`JSON.parse` inverts the printer**, behind and before white space. -/
theorem parse_render {gap : Text} (hg : ∀ u ∈ gap, isSpace u = true) {v : Value} (hp : v.Proper)
    (hs : Everywhere NumberSpelled v) {rest : Text} (hr : ∀ u ∈ rest, isSpace u = true) :
    parse (render gap [] v ++ rest) = some v := by
  have hend : NumberEnd rest := by
    cases rest with
    | nil => trivial
    | cons u rest =>
        have := hr u (by simp)
        simp only [isSpace, Bool.or_eq_true, decide_eq_true_eq] at this
        rcases this with ((rfl | rfl) | rfl) | rfl <;>
          exact ⟨by decide, by decide, by decide, by decide⟩
  have hread := readsBack hg hp hs [] rest (2 * (render gap [] v ++ rest).length + 1) (by simp) hend
    (by simp only [List.length_append]; omega)
  have hskip : skipSpace rest = [] := by
    have := skipSpace_append hr []
    rwa [List.append_nil] at this
  rw [parse, hread]
  simp [hskip]

/-- Whatever stands behind a printed value, nothing else is read there. -/
theorem parse_render_append {gap : Text} (hg : ∀ u ∈ gap, isSpace u = true) {v w : Value}
    (hp : v.Proper) (hs : Everywhere NumberSpelled v) {rest : Text} (hend : NumberEnd rest)
    (h : parse (render gap [] v ++ rest) = some w) : w = v := by
  have hread := readsBack hg hp hs [] rest (2 * (render gap [] v ++ rest).length + 1) (by simp) hend
    (by simp only [List.length_append]; omega)
  rw [parse, hread] at h
  dsimp only at h
  split at h
  · exact (Option.some.inj h).symm
  · cases h

/-! ## What the parser builds -/

theorem define_names (l : List (Text × Value)) (name : Text) (v : Value) :
    (define l name v).map Prod.fst
      = if name ∈ l.map Prod.fst then l.map Prod.fst else l.map Prod.fst ++ [name] := by
  unfold define
  split
  · rw [List.map_map]
    refine List.map_congr_left fun p _ => ?_
    simp only [Function.comp_apply]
    split
    · next h => exact h.symm
    · rfl
  · simp

theorem mem_define {l : List (Text × Value)} {name : Text} {v : Value} {p : Text × Value}
    (h : p ∈ define l name v) : p ∈ l ∨ p.2 = v := by
  unfold define at h
  split at h
  · obtain ⟨q, hq, rfl⟩ := List.mem_map.mp h
    split
    · exact Or.inr rfl
    · exact Or.inl hq
  · rcases List.mem_append.mp h with h | h
    · exact Or.inl h
    · rw [List.mem_singleton.mp h]; exact Or.inr rfl

/-- However often a name is given, the object has it once, with a value given to it. -/
theorem collapse_spec (l : List (Text × Value)) :
    ((collapse l).map Prod.fst).Nodup ∧ ∀ p ∈ collapse l, ∃ q ∈ l, p.2 = q.2 := by
  have key : ∀ (l acc : List (Text × Value)), (acc.map Prod.fst).Nodup →
      ((l.foldl (fun acc p => define acc p.1 p.2) acc).map Prod.fst).Nodup ∧
        ∀ p ∈ l.foldl (fun acc p => define acc p.1 p.2) acc, p ∈ acc ∨ ∃ q ∈ l, p.2 = q.2 := by
    intro l
    induction l with
    | nil => exact fun acc h => ⟨h, fun p hp => Or.inl hp⟩
    | cons q l ih =>
        intro acc hacc
        have hdef : ((define acc q.1 q.2).map Prod.fst).Nodup := by
          rw [define_names]
          split
          · exact hacc
          · next hq =>
            refine List.nodup_append.mpr ⟨hacc, List.nodup_singleton _, fun a ha b hb h => hq ?_⟩
            rw [← List.mem_singleton.mp hb, ← h]
            exact ha
        obtain ⟨h₁, h₂⟩ := ih _ hdef
        refine ⟨h₁, fun p hp => ?_⟩
        rcases h₂ p hp with h | ⟨q', hq', h⟩
        · rcases mem_define h with h | h
          · exact Or.inl h
          · exact Or.inr ⟨q, by simp, h⟩
        · exact Or.inr ⟨q', List.mem_cons_of_mem _ hq', h⟩
  obtain ⟨h₁, h₂⟩ := key l [] (by simp)
  exact ⟨h₁, fun p hp => (h₂ p hp).resolve_left (by simp)⟩

theorem scanWord_value {word t rest : Text} {v w : Value} (h : scanWord word v t = some (w, rest)) :
    w = v := by
  unfold scanWord at h
  split at h
  · simp only [Option.some.injEq, Prod.mk.injEq] at h
    exact h.1.symm
  · cases h

/-- What the three parsers build is proper. -/
theorem parse_proper_aux (n : Nat) :
    (∀ {t rest v}, parseValue n t = some (v, rest) → v.Proper) ∧
      (∀ {t rest l}, parseItems n t = some (l, rest) → ∀ v ∈ l, v.Proper) ∧
      (∀ {t rest l}, parseMembers n t = some (l, rest) → ∀ p ∈ l, p.2.Proper) := by
  have leaf : ∀ {v : Value}, v.children = [] → NamesUnique v → v.Proper :=
    fun h h' => (everywhere_leaf h).mpr h'
  induction n with
  | zero =>
      refine ⟨?_, ?_, ?_⟩ <;> intro t rest v h
      · simp [parseValue] at h
      · simp [parseItems] at h
      · simp [parseMembers] at h
  | succ n ih =>
      obtain ⟨ihv, ihi, ihm⟩ := ih
      refine ⟨?_, ?_, ?_⟩
      · intro t rest v h
        rw [parseValue] at h
        split at h
        · cases h
        · split_ifs at h with h₁ h₂ h₃ h₄ h₅ h₆
          · split at h
            · obtain ⟨rfl, -⟩ := by simpa using h
              exact leaf rfl (by simp [NamesUnique])
            · obtain ⟨⟨l, r⟩, hl, h⟩ := Option.map_eq_some_iff.mp h
              obtain ⟨rfl, -⟩ := by simpa using h
              obtain ⟨hn, hc⟩ := collapse_spec l
              refine everywhere_obj.mpr ⟨hn, fun p hp => ?_⟩
              obtain ⟨q, hq, he⟩ := hc p hp
              rw [he]
              exact ihm hl q hq
          · split at h
            · obtain ⟨rfl, -⟩ := by simpa using h
              exact leaf rfl trivial
            · obtain ⟨⟨l, r⟩, hl, h⟩ := Option.map_eq_some_iff.mp h
              obtain ⟨rfl, -⟩ := by simpa using h
              exact everywhere_arr.mpr ⟨trivial, ihi hl⟩
          · obtain ⟨p, -, h⟩ := Option.map_eq_some_iff.mp h
            obtain ⟨rfl, -⟩ := by simpa using h
            exact leaf rfl trivial
          · rw [scanWord_value h]; exact leaf rfl trivial
          · rw [scanWord_value h]; exact leaf rfl trivial
          · rw [scanWord_value h]; exact leaf rfl trivial
          · obtain ⟨p, -, h⟩ := Option.map_eq_some_iff.mp h
            obtain ⟨rfl, -⟩ := by simpa using h
            exact leaf rfl trivial
      · intro t rest l h
        rw [parseItems] at h
        split at h
        · cases h
        · next v t' hv =>
          split at h
          · obtain ⟨p, hp, h⟩ := Option.map_eq_some_iff.mp h
            obtain ⟨rfl, -⟩ := by simpa using h
            exact List.forall_mem_cons.mpr ⟨ihv hv, ihi hp⟩
          · obtain ⟨rfl, -⟩ := by simpa using h
            simpa using ihv hv
          · cases h
      · intro t rest l h
        rw [parseMembers] at h
        split at h
        · split at h
          · cases h
          · split at h
            · split at h
              · cases h
              · next v t' hv =>
                split at h
                · obtain ⟨p, hp, h⟩ := Option.map_eq_some_iff.mp h
                  obtain ⟨rfl, -⟩ := by simpa using h
                  exact List.forall_mem_cons.mpr ⟨ihv hv, ihm hp⟩
                · obtain ⟨rfl, -⟩ := by simpa using h
                  simpa using ihv hv
                · cases h
            · cases h
        · cases h

/-- **The objects that `JSON.parse` builds have unique names at every depth.** -/
theorem parse_proper {t : Text} {v : Value} (h : parse t = some v) : v.Proper := by
  unfold parse at h
  split at h
  · next v' rest hv =>
    split at h
    · obtain rfl := by simpa using h
      exact (parse_proper_aux _).1 hv
    · cases h
  · cases h

/-! ## Property order -/

theorem orderedItems_eq (l : List Value) : orderedItems l = l.map ordered := by
  induction l with
  | nil => rfl
  | cons v rest ih => rw [orderedItems, ih, List.map_cons]

theorem orderedMembers_eq (l : List (Text × Value)) :
    orderedMembers l = l.map fun p => (p.1, ordered p.2) := by
  induction l with
  | nil => rfl
  | cons p rest ih => rw [orderedMembers, ih, List.map_cons]

/-- Without array indices the order of creation is property order. -/
theorem propertyOrder_eq_self {α : Type} {l : List (Text × α)}
    (h : ∀ p ∈ l, arrayIndex? p.1 = none) : propertyOrder l = l := by
  have hno : (l.filter fun p => (arrayIndex? p.1).isSome) = [] :=
    List.filter_eq_nil_iff.mpr fun p hp => by simp [h p hp]
  have hall : (l.filter fun p => !(arrayIndex? p.1).isSome) = l :=
    List.filter_eq_self.mpr fun p hp => by simp [h p hp]
  rw [propertyOrder, hno, hall]
  rfl

theorem mem_propertyOrder_orderedMembers {l : List (Text × Value)} {p : Text × Value}
    (h : p ∈ propertyOrder (orderedMembers l)) : ∃ q ∈ l, p = (q.1, ordered q.2) := by
  rw [(propertyOrder_perm _).mem_iff, orderedMembers_eq] at h
  obtain ⟨q, hq, rfl⟩ := List.mem_map.mp h
  exact ⟨q, hq, rfl⟩

theorem ordered_proper {v : Value} (h : v.Proper) : (ordered v).Proper := by
  induction v with
  | arr l ih =>
      rw [ordered, orderedItems_eq]
      refine everywhere_arr.mpr ⟨trivial, fun w hw => ?_⟩
      obtain ⟨u, hu, rfl⟩ := List.mem_map.mp hw
      exact ih u hu ((everywhere_arr.mp h).2 u hu)
  | obj l ih =>
      obtain ⟨hn, hp⟩ := everywhere_obj.mp h
      rw [ordered]
      refine everywhere_obj.mpr ⟨?_, fun p hmem => ?_⟩
      · have hperm := (propertyOrder_perm (orderedMembers l)).map Prod.fst
        rw [NamesUnique, hperm.nodup_iff, orderedMembers_eq, List.map_map]
        exact hn
      · obtain ⟨q, hq, rfl⟩ := mem_propertyOrder_orderedMembers hmem
        exact ih q hq (hp q hq)
  | _ => exact h

theorem ordered_spelled {v : Value} (h : Everywhere NumberSpelled v) :
    Everywhere NumberSpelled (ordered v) := by
  induction v with
  | arr l ih =>
      rw [ordered, orderedItems_eq]
      refine everywhere_arr.mpr ⟨trivial, fun w hw => ?_⟩
      obtain ⟨u, hu, rfl⟩ := List.mem_map.mp hw
      exact ih u hu ((everywhere_arr.mp h).2 u hu)
  | obj l ih =>
      rw [ordered]
      refine everywhere_obj.mpr ⟨trivial, fun p hmem => ?_⟩
      obtain ⟨q, hq, rfl⟩ := mem_propertyOrder_orderedMembers hmem
      exact ih q hq ((everywhere_obj.mp h).2 q hq)
  | _ => exact h

/-- Property order is one of the orders of the same data. -/
theorem canon_ordered {v : Value} (h : v.Proper) : (ordered v).canon = v.canon := by
  induction v with
  | arr l ih =>
      rw [ordered, canon, canon, canonItems_eq, canonItems_eq, orderedItems_eq, List.map_map]
      congr 1
      exact List.map_congr_left fun u hu => ih u hu ((everywhere_arr.mp h).2 u hu)
  | obj l ih =>
      obtain ⟨hn, hp⟩ := everywhere_obj.mp h
      have hmap : canonMembers (orderedMembers l) = canonMembers l := by
        rw [canonMembers_eq, canonMembers_eq, orderedMembers_eq, List.map_map]
        exact List.map_congr_left fun q hq => by
          simp only [Function.comp_apply, ih q hq (hp q hq)]
      have hperm : (canonMembers (propertyOrder (orderedMembers l))).Perm (canonMembers l) := by
        rw [← hmap, canonMembers_eq, canonMembers_eq]
        exact (propertyOrder_perm _).map _
      rw [ordered, canon, canon,
        (sortMembers_congr (by rwa [canonMembers_names]) hperm.symm).symm]
  | _ => rfl

/-- **`JSON.parse` inverts `JSON.stringify`** up to the order of members. -/
theorem parse_stringify {gap : Text} (hg : ∀ u ∈ gap, isSpace u = true) {v : Value} (hp : v.Proper)
    (hs : Everywhere NumberSpelled v) {rest : Text} (hr : ∀ u ∈ rest, isSpace u = true) :
    parse (stringify gap v ++ rest) = some (ordered v) :=
  parse_render hg (ordered_proper hp) (ordered_spelled hs) hr

/-! ## Printing without a gap -/

theorem bracket_no_gap (left right : UInt16) (indent : Text) (parts : List Text) :
    bracket left right [] indent parts = left :: (joinWith [0x2C] parts ++ [right]) := by
  unfold bracket
  split
  · next h => subst h; rfl
  · simp [newline]

theorem renderItems_eq (gap indent : Text) (l : List Value) :
    renderItems gap indent l = l.map (render gap indent) := by
  induction l with
  | nil => rfl
  | cons v rest ih => rw [renderItems, ih, List.map_cons]

theorem renderMembers_eq (gap indent : Text) (l : List (Text × Value)) :
    renderMembers gap indent l = l.map fun p =>
      quote p.1 ++ 0x3A :: ((if gap = [] then [] else [0x20]) ++ render gap indent p.2) := by
  induction l with
  | nil => rfl
  | cons p rest ih => rw [renderMembers, ih, List.map_cons]

theorem joinWith_wellFormed {sep : Text} (hsep : WellFormed sep) : ∀ {parts : List Text},
    (∀ t ∈ parts, WellFormed t) → WellFormed (joinWith sep parts)
  | [], _ => rfl
  | [t], h => h t (by simp)
  | t :: u :: parts, h =>
      ((h t (by simp)).append hsep).append
        (joinWith_wellFormed hsep fun x hx => h x (List.mem_cons_of_mem _ hx))

theorem escapeUnit_ascii (u : UInt16) : ∀ v ∈ escapeUnit u, v.toNat < 0x80 := by
  have hhex : ∀ d, d < 16 → (hexUnit d).toNat < 0x80 := by decide
  have hu := u.toNat_lt
  simp only [escapeUnit, List.mem_cons, List.not_mem_nil, or_false, forall_eq_or_imp, forall_eq]
  exact ⟨by decide, by decide, hhex _ (by omega), hhex _ (by omega), hhex _ (by omega),
    hhex _ (by omega)⟩

theorem quoteUnit_wellFormed {u : UInt16} (hhi : isHighSurrogate u = false)
    (hlo : isLowSurrogate u = false) : WellFormed (quoteUnit u) := by
  unfold quoteUnit
  split_ifs <;> first
    | rfl
    | exact wellFormed_of_ascii (escapeUnit_ascii u)
    | simp [WellFormed, wellFormed, hhi, hlo]

/-- Whatever the string, its quoted form is well formed. -/
theorem quoteBody_wellFormed : ∀ t : Text, WellFormed (quoteBody t)
  | [] => rfl
  | [u] => by
      unfold quoteBody
      split
      · exact wellFormed_of_ascii (escapeUnit_ascii u)
      · next h =>
        simp only [Bool.or_eq_true, not_or, Bool.not_eq_true] at h
        exact quoteUnit_wellFormed h.1 h.2
  | u :: v :: t => by
      have ih := quoteBody_wellFormed (v :: t)
      unfold quoteBody
      split_ifs with h₁ h₂ h₃
      · simpa [WellFormed, wellFormed, h₁, h₂] using quoteBody_wellFormed t
      · exact (wellFormed_of_ascii (escapeUnit_ascii u)).append ih
      · exact (wellFormed_of_ascii (escapeUnit_ascii u)).append ih
      · exact (quoteUnit_wellFormed (by simpa using h₁) (by simpa using h₃)).append ih

theorem quote_wellFormed (t : Text) : WellFormed (quote t) :=
  (show WellFormed [0x22] by decide).append ((quoteBody_wellFormed t).append (by decide))

theorem bracket_wellFormed {left right : UInt16} {gap indent : Text} {parts : List Text}
    (hl : left.toNat < 0x80) (hr : right.toNat < 0x80) (hg : ∀ u ∈ gap, u.toNat < 0x80)
    (hi : ∀ u ∈ indent, u.toNat < 0x80) (hp : ∀ t ∈ parts, WellFormed t) :
    WellFormed (bracket left right gap indent parts) := by
  have hline : ∀ {indent : Text}, (∀ u ∈ indent, u.toNat < 0x80) →
      WellFormed (newline gap indent) := by
    intro indent hi
    unfold newline
    split
    · rfl
    · exact wellFormed_of_ascii (List.forall_mem_cons.mpr ⟨by decide, hi⟩)
  have hline' : WellFormed (newline gap (indent ++ gap)) :=
    hline (List.forall_mem_append.mpr ⟨hi, hg⟩)
  have h₁ : WellFormed [left] := wellFormed_of_ascii (by simpa using hl)
  have h₂ : WellFormed [right] := wellFormed_of_ascii (by simpa using hr)
  have hsep : WellFormed (0x2C :: newline gap (indent ++ gap)) :=
    (show WellFormed [0x2C] by decide).append hline'
  unfold bracket
  split
  · exact h₁.append h₂
  · exact h₁.append (((hline'.append (joinWith_wellFormed hsep hp)).append (hline hi)).append h₂)

/-- **Printed text has no unpaired surrogate**, whatever the strings in the value. -/
theorem render_wellFormed {gap indent : Text} (hg : ∀ u ∈ gap, u.toNat < 0x80)
    (hi : ∀ u ∈ indent, u.toNat < 0x80) (v : Value) : WellFormed (render gap indent v) := by
  induction v generalizing indent with
  | null => rw [render, words.1]; decide
  | bool b => cases b <;> simp only [render, words] <;> decide
  | num x =>
      rw [render]
      split
      · exact wellFormed_of_ascii x.text_ascii
      · rw [words.1]; decide
  | str t => exact quote_wellFormed t
  | arr l ih =>
      refine bracket_wellFormed (by decide) (by decide) hg hi fun t ht => ?_
      rw [renderItems_eq] at ht
      obtain ⟨v, hv, rfl⟩ := List.mem_map.mp ht
      exact ih v hv (List.forall_mem_append.mpr ⟨hi, hg⟩)
  | obj l ih =>
      refine bracket_wellFormed (by decide) (by decide) hg hi fun t ht => ?_
      rw [renderMembers_eq] at ht
      obtain ⟨p, hp, rfl⟩ := List.mem_map.mp ht
      have hval := ih p hp (List.forall_mem_append.mpr ⟨hi, hg⟩)
      refine (quote_wellFormed p.1).append ((show WellFormed [0x3A] by decide).append ?_)
      split
      · exact hval
      · exact (show WellFormed [0x20] by decide).append hval

end Ecma
