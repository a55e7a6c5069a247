/-
# The values that a phase records for its decision

`normalizeDecisionInputValues` reads what was supplied on the command line: each
input needs a value, a number becomes a number within its bounds, and a choice
takes its declared spelling.

`Admissible` says the same without texts: any finite number within the bounds and
any declared choice.  That these are exactly the values that can be supplied
(`normalizeDecisionInputValues_iff`) needs, for every finite number, a text that is
read as it; `exactLiteral` writes out all digits of the number.
-/
import SingularityFlow.Lib.Coercion
import SingularityFlow.Story.Outcomes
import SingularityFlow.Story.Accepted
import Mathlib.Data.List.Forall2

namespace SingularityFlow

open Ecma Approval

namespace Story

variable (tables : UnicodeTables)

/-! ## Reading the values -/

def inputInvalid (message : Text) : Failure :=
  .singularityFlow message (some (js "DECISION_INPUT_INVALID"))

/-- The value of one input, from the trimmed text that was supplied. -/
def normalizeInputValue (input : Input) (raw : Text) : Except Failure RecordedValue :=
  match input.type with
  | .number minimum maximum => do
      let number := stringToNumber raw
      failIf (number.isFinite = false ∨ minimum.any number.less = true
          ∨ maximum.any (·.less number) = true)
        (inputInvalid (js "Decision input '" ++ input.name ++ js "' must be a number"
          ++ ((minimum.map fun x => js " from " ++ x.text).getD [])
          ++ ((maximum.map fun x => js " up to " ++ x.text).getD [])
          ++ js "; got '" ++ raw ++ js "'."))
      .ok (.number number)
  | .choice values =>
      match values.find? fun choice => tables.toLowerCase choice = tables.toLowerCase raw with
      | some found => .ok (.choice found)
      | none => .error (inputInvalid (js "Decision input '" ++ input.name ++ js "' must be one of "
          ++ join (js ", ") values ++ js "; got '" ++ raw ++ js "'."))

/-- `String(supplied[name]).trim()`, unless it is missing or empty. -/
def suppliedText (supplied : List (Text × Value)) (name : Text) : Option Text :=
  ((mapGet supplied name).map fun value => trim value.toText).filter (· ≠ [])

/-- The loop over the inputs: the names that are missing, and the values. -/
def normalizeInputValues (supplied : List (Text × Value)) :
    List Input → Except Failure (List Text × RecordedValues)
  | [] => .ok ([], [])
  | input :: rest =>
      match suppliedText supplied input.name with
      | none => do
          let (missing, values) ← normalizeInputValues supplied rest
          .ok (input.name :: missing, values)
      | some raw => do
          let value ← normalizeInputValue tables input raw
          let (missing, values) ← normalizeInputValues supplied rest
          .ok (missing, (input.name, value) :: values)

def normalizeDecisionInputValues (decision : Decision) (supplied : List (Text × Value)) :
    Except Failure RecordedValues := do
  let unknown := (supplied.map Prod.fst).filter fun name => !decision.inputs.any (·.name = name)
  failIf (unknown ≠ []) (.singularityFlow (js "Decision '" ++ decision.label
    ++ js "' does not record " ++ quotedList unknown ++ js ". It records: "
    ++ join (js ", ") (decision.inputs.map (·.name)) ++ js ".")
    (some (js "DECISION_INPUT_UNKNOWN")))
  let (missing, values) ← normalizeInputValues tables supplied decision.inputs
  failIf (missing ≠ []) (.singularityFlow (js "Decision '" ++ decision.label ++ js "' after '"
    ++ decision.after ++ js "' needs " ++ quotedList missing ++ js ". Submit with "
    ++ decisionInputsHint decision ++ js ".") (some (js "DECISION_INPUTS_MISSING")))
  .ok values

/-! ## What the values can be -/

/-- A finite number within the bounds, or a declared choice. -/
def Input.admits (input : Input) (value : RecordedValue) : Bool :=
  match input.type, value with
  | .number minimum maximum, .number x =>
      x.isFinite && !minimum.any x.less && !maximum.any (·.less x)
  | .choice values, .choice t => t ∈ values
  | _, _ => false

/-- A value for each of the inputs, in their order. -/
def Admissible (inputs : List Input) (values : RecordedValues) : Prop :=
  List.Forall₂ (fun input entry => entry.1 = input.name ∧ input.admits entry.2 = true) inputs values

/-- What is checked of the inputs of a decision. -/
structure InputsSound (tables : UnicodeTables) (inputs : List Input) : Prop where
  names : (inputs.map (·.name)).Nodup
  bounds : ∀ input ∈ inputs, ∀ minimum maximum, input.type = .number minimum maximum →
    minimum.any (!·.isFinite) = false ∧ maximum.any (!·.isFinite) = false
      ∧ boundsInvalid minimum maximum = false
  choices : ∀ input ∈ inputs, ∀ values, input.type = .choice values →
    values ≠ [] ∧ (∀ t ∈ values, t ≠ [] ∧ trim t = t) ∧ (values.map tables.toLowerCase).Nodup

variable {tables}

theorem text_spec {value : Option Text} {label : Text} {limit : Nat} {t : Text}
    (h : text value label limit = .ok t) : t ≠ [] ∧ trim t = t := by
  simp only [text, bind_eq_ok_iff, failIf_eq_ok_iff, exists_const, Except.ok.injEq] at h
  obtain ⟨hne, -, rfl⟩ := h
  exact ⟨hne, trim_trim _⟩

theorem normalizeInput_sound {label : Text} {draft : InputDraft} {input : Input}
    (h : normalizeInput tables label draft = .ok input) :
    input.name = draft.name ∧ InputsSound tables [input] := by
  simp only [normalizeInput, bind_eq_ok_iff] at h
  obtain ⟨display, -, h⟩ := h
  split at h
  · simp only [bind_eq_ok_iff, failIf_eq_ok_iff, exists_const, Except.ok.injEq,
      Bool.not_eq_true] at h
    obtain ⟨-, hmin, hmax, hbounds, rfl⟩ := h
    refine ⟨rfl, List.nodup_singleton _, List.forall_mem_singleton.mpr ?_,
      List.forall_mem_singleton.mpr ?_⟩
    · rintro minimum maximum htype
      obtain ⟨rfl, rfl⟩ := InputType.number.inj htype
      exact ⟨hmin, hmax, hbounds⟩
    · rintro values htype
      cases htype
  · simp only [bind_eq_ok_iff, failIf_eq_ok_iff, exists_const, Except.ok.injEq] at h
    obtain ⟨-, -, hlength, values, hvalues, hnodup, rfl⟩ := h
    refine ⟨rfl, List.nodup_singleton _, List.forall_mem_singleton.mpr ?_,
      List.forall_mem_singleton.mpr ?_⟩
    · rintro minimum maximum htype
      cases htype
    rintro values' htype
    obtain rfl := InputType.choice.inj htype
    refine ⟨?_, fun t ht => ?_, not_not.mp hnodup⟩
    · rintro rfl
      have hnil := (sequence_eq_ok hvalues)
      rw [List.map_nil, List.mapIdx_eq_nil_iff] at hnil
      exact hlength (.inl hnil)
    · obtain ⟨index, choice, htext⟩ := exists_of_sequence_mapIdx hvalues ht
      exact text_spec htext

theorem normalizeInputList_sound {location : Text} : ∀ {drafts : List InputDraft}
    {names : List Text} {index : Nat} {inputs : List Input},
    normalizeInputList tables location names index drafts = .ok inputs →
    InputsSound tables inputs ∧ ∀ input ∈ inputs, input.name ∉ names
  | [], _, _, inputs, h => by
      obtain rfl : [] = inputs := Except.ok.inj h
      refine ⟨⟨List.nodup_nil, ?_, ?_⟩, ?_⟩
      all_goals exact fun _ hmem => absurd hmem List.not_mem_nil
  | draft :: rest, names, index, inputs, h => by
      simp only [normalizeInputList, bind_eq_ok_iff, failIf_eq_ok_iff, exists_const,
        Except.ok.injEq] at h
      obtain ⟨-, hfresh, input, hinput, others, hothers, rfl⟩ := h
      obtain ⟨hname, hone⟩ := normalizeInput_sound hinput
      obtain ⟨hrest, hnames⟩ := normalizeInputList_sound hothers
      refine ⟨⟨?_, ?_, ?_⟩, List.forall_mem_cons.mpr ⟨hname ▸ hfresh, fun other hother => ?_⟩⟩
      · refine List.nodup_cons.mpr ⟨fun hmem => ?_, hrest.names⟩
        obtain ⟨other, hother, heq⟩ := List.mem_map.mp hmem
        exact hnames other hother (List.mem_cons.mpr (.inl (heq.trans hname)))
      · exact List.forall_mem_cons.mpr
          ⟨hone.bounds input List.mem_cons_self, hrest.bounds⟩
      · exact List.forall_mem_cons.mpr
          ⟨hone.choices input List.mem_cons_self, hrest.choices⟩
      · exact fun hmem => hnames other hother (List.mem_cons_of_mem _ hmem)

theorem normalizeInputs_sound {value : Option (List InputDraft)} {location : Text}
    {inputs : List Input} (h : normalizeInputs tables value location = .ok inputs) :
    InputsSound tables inputs := by
  cases value with
  | none =>
      obtain rfl : [] = inputs := Except.ok.inj h
      refine ⟨List.nodup_nil, ?_, ?_⟩
      all_goals exact fun _ hmem => absurd hmem List.not_mem_nil
  | some drafts =>
      simp only [normalizeInputs, bind_eq_ok_iff, failIf_eq_ok_iff, exists_const] at h
      exact (normalizeInputList_sound h.2).1

/-! ## A text for every number -/

/-- The digits after the point. -/
def literalFraction (e : Int) : Nat := (-e).toNat

/-- `m · 2 ^ e`, as a number of units of its last decimal digit. -/
def literalDigits (m : Nat) (e : Int) : Nat := m * 2 ^ e.toNat * 5 ^ literalFraction e

/-- All digits of `m · 2 ^ e`, with a point and a sign. -/
def exactLiteral (negative : Bool) (m : Nat) (e : Int) : Text :=
  let s := literalDigits m e
  let digits := lastDigits (Nat.log 10 s + 1 + literalFraction e) s
  (if negative then 0x2D else 0x2B)
    :: (digits.take (Nat.log 10 s + 1) ++ 0x2E :: digits.drop (Nat.log 10 s + 1))

theorem ofDecimal_literalDigits {negative : Bool} {m : Nat} {e : Int} (h : Canonical m e) :
    ofDecimal negative (literalDigits m e) (-(literalFraction e : Int))
      = .finite negative m e h := by
  by_cases hm : m = 0
  · subst hm
    have he : e = -1074 := by
      obtain ⟨-, -, -, hlead | he⟩ := h
      · exact absurd hlead (by norm_num)
      · exact he
    subst he
    simp [ofDecimal, literalDigits]
  · have hpos : 0 < m := Nat.pos_of_ne_zero hm
    have hdigits : 0 < literalDigits m e := by unfold literalDigits; positivity
    have hfraction := roundFraction_fraction negative hpos h
    rw [ofDecimal, if_neg hdigits.ne', ← hfraction]
    by_cases he : 0 ≤ e
    · have hzero : literalFraction e = 0 := by unfold literalFraction; omega
      rw [hzero, if_pos (by simp)]
      simp [fraction, he, literalDigits, hzero]
    · rw [if_neg (by unfold literalFraction; omega)]
      refine roundFraction_congr hdigits (by positivity) (fraction_num_pos hpos e)
        (fraction_den_pos m e) ?_
      have hnat : e.toNat = 0 := by omega
      simp only [fraction, he, if_false, literalDigits, hnat, literalFraction, neg_neg,
        Int.toNat_natCast, pow_zero, mul_one]
      rw [mul_assoc, ← mul_pow, show 5 * 2 = 10 from rfl]

theorem mem_exactLiteral {negative : Bool} {m : Nat} {e : Int} {u : UInt16}
    (h : u ∈ exactLiteral negative m e) :
    isDigit u = true ∨ u = 0x2E ∨ u = 0x2D ∨ u = 0x2B := by
  rw [exactLiteral, List.mem_cons, List.mem_append, List.mem_cons] at h
  obtain rfl | h | rfl | h := h
  · cases negative with
    | true => exact .inr (.inr (.inl rfl))
    | false => exact .inr (.inr (.inr rfl))
  · exact .inl (lastDigits_isDigit _ _ u (List.mem_of_mem_take h))
  · exact .inr (.inl rfl)
  · exact .inl (lastDigits_isDigit _ _ u (List.mem_of_mem_drop h))

theorem trim_exactLiteral (negative : Bool) (m : Nat) (e : Int) :
    trim (exactLiteral negative m e) = exactLiteral negative m e := by
  refine trim_of_forall fun u hu => ?_
  obtain hdigit | rfl | rfl | rfl := mem_exactLiteral hu
  · simp only [isDigit, Bool.and_eq_true, decide_eq_true_eq] at hdigit
    exact isTrimmed_of_printable (by omega) (by omega)
  all_goals decide

/-- The digits around a point are read as one number. -/
theorem unsignedDecimal_point (negative : Bool) {int frac : Text}
    (hint : ∀ u ∈ int, isDigit u = true) (hne : int ≠ []) (hfrac : ∀ u ∈ frac, isDigit u = true) :
    unsignedDecimal negative (int ++ 0x2E :: frac)
      = some (ofDecimal negative (digitsValue (int ++ frac)) (-(frac.length : Int))) := by
  have hinfinity : int ++ 0x2E :: frac ≠ js "Infinity" := by
    intro h
    have hmem : (0x2E : UInt16) ∈ js "Infinity" := h ▸ List.mem_append_right _ List.mem_cons_self
    exact absurd hmem (by decide)
  have hpoint : isDigit 0x2E = false := by decide
  have htake : (int ++ 0x2E :: frac).takeWhile isDigit = int := by
    rw [List.takeWhile_append_of_pos hint, List.takeWhile_cons_of_neg (by simp [hpoint]),
      List.append_nil]
  have hdrop : (int ++ 0x2E :: frac).dropWhile isDigit = 0x2E :: frac := by
    rw [List.dropWhile_append_of_pos hint, List.dropWhile_cons_of_neg (by simp [hpoint])]
  have hnil : DigitsEnd [] := by simp [DigitsEnd]
  have htake' : frac.takeWhile isDigit = frac := by
    simpa using takeWhile_digits hfrac hnil
  have hdrop' : frac.dropWhile isDigit = [] := by
    simpa using dropWhile_digits hfrac hnil
  rw [unsignedDecimal, if_neg hinfinity]
  simp only [htake, hdrop, htake', hdrop', hne, false_and, if_false, exponentValue, Option.map_some,
    zero_sub]

/-- **Every finite number has a text** that is read as it, `-0` included. -/
theorem stringToNumber_exactLiteral (negative : Bool) {m : Nat} {e : Int} (h : Canonical m e) :
    stringToNumber (exactLiteral negative m e) = .finite negative m e h := by
  let s := literalDigits m e
  let digits := lastDigits (Nat.log 10 s + 1 + literalFraction e) s
  have hdigit : ∀ u ∈ digits, isDigit u = true := lastDigits_isDigit _ _
  have hlength : digits.length = Nat.log 10 s + 1 + literalFraction e := lastDigits_length _ _
  have hvalue : digitsValue digits = s := by
    rw [digitsValue_lastDigits]
    have hlt : s < 10 ^ (Nat.log 10 s + 1) := Nat.lt_pow_succ_log_self (by norm_num) s
    refine Nat.mod_eq_of_lt (hlt.trans_le ?_)
    exact Nat.pow_le_pow_right (by norm_num) (Nat.le_add_right _ _)
  have hint : digits.take (Nat.log 10 s + 1) ≠ [] :=
    List.ne_nil_of_length_pos (by rw [List.length_take, hlength]; omega)
  have hfrac : ((digits.drop (Nat.log 10 s + 1)).length : Int) = literalFraction e := by
    rw [List.length_drop, hlength]
    omega
  have hint' : ∀ u ∈ digits.take (Nat.log 10 s + 1), isDigit u = true :=
    fun u hu => hdigit u (List.mem_of_mem_take hu)
  have hfrac' : ∀ u ∈ digits.drop (Nat.log 10 s + 1), isDigit u = true :=
    fun u hu => hdigit u (List.mem_of_mem_drop hu)
  have hdecimal := unsignedDecimal_point negative hint' hint hfrac'
  rw [List.take_append_drop, hvalue, hfrac] at hdecimal
  have hliteral := hdecimal.trans (congrArg some (ofDecimal_literalDigits h))
  rw [stringToNumber, trim_exactLiteral, exactLiteral]
  cases negative with
  | true => exact congrArg (Option.getD · Number.nan) hliteral
  | false => exact congrArg (Option.getD · Number.nan) hliteral

/-! ## The values that can be supplied -/

variable {input : Input} {value : RecordedValue} {supplied : List (Text × Value)}

theorem normalizeInputValue_admits {raw : Text}
    (h : normalizeInputValue tables input raw = .ok value) : input.admits value = true := by
  unfold normalizeInputValue at h
  unfold Input.admits
  split at h
  · next minimum maximum htype =>
    simp only [bind_eq_ok_iff, failIf_eq_ok_iff, exists_const, Except.ok.injEq, not_or,
      Bool.not_eq_true, Bool.not_eq_false] at h
    obtain ⟨⟨hfinite, hmin, hmax⟩, rfl⟩ := h
    simp [htype, hfinite, hmin, hmax]
  · next values htype =>
    split at h
    · next found hfound =>
      obtain rfl := Except.ok.inj h
      simp [htype, List.mem_of_find?_eq_some hfound]
    · cases h

/-- A text that is read as the value. -/
theorem exists_suppliedText (hsound : InputsSound tables [input])
    (hadmits : input.admits value = true) :
    ∃ t, trim t = t ∧ t ≠ [] ∧ normalizeInputValue tables input t = .ok value := by
  unfold Input.admits at hadmits
  unfold normalizeInputValue
  split at hadmits
  · next minimum maximum x htype =>
    simp only [Bool.and_eq_true, Bool.not_eq_true'] at hadmits
    obtain ⟨⟨hfinite, hmin⟩, hmax⟩ := hadmits
    cases x with
    | nan => cases hfinite
    | infinity negative => cases hfinite
    | finite negative m e h =>
        refine ⟨exactLiteral negative m e, trim_exactLiteral negative m e,
          List.cons_ne_nil _ _, ?_⟩
        simp only [htype, stringToNumber_exactLiteral negative h, bind_eq_ok_iff, failIf_eq_ok_iff,
          exists_const]
        exact ⟨by simp [hfinite, hmin, hmax], trivial⟩
  · next values t htype =>
    have hmem : t ∈ values := of_decide_eq_true hadmits
    obtain ⟨-, htrimmed, hnodup⟩ := hsound.choices input List.mem_cons_self values htype
    obtain ⟨hne, htrim⟩ := htrimmed t hmem
    refine ⟨t, htrim, hne, ?_⟩
    simp only [htype]
    cases hfind : values.find? fun choice => tables.toLowerCase choice = tables.toLowerCase t with
    | none => simpa using List.find?_eq_none.mp hfind t hmem
    | some found =>
        -- no two choices differ in their case alone
        have hlower : tables.toLowerCase found = tables.toLowerCase t := by
          simpa using List.find?_some hfind
        rw [List.inj_on_of_nodup_map hnodup (List.mem_of_find?_eq_some hfind) hmem hlower]
  · cases hadmits

theorem normalizeInputValues_admissible {inputs : List Input} {values : RecordedValues} :
    normalizeInputValues tables supplied inputs = .ok ([], values) → Admissible inputs values := by
  induction inputs generalizing values with
  | nil =>
      intro h
      obtain ⟨-, rfl⟩ := Prod.mk.inj (Except.ok.inj h)
      exact .nil
  | cons input rest ih =>
      intro h
      rw [normalizeInputValues] at h
      split at h
      · simp only [bind_eq_ok_iff, Except.ok.injEq, Prod.mk.injEq, Prod.exists] at h
        obtain ⟨missing, others, -, hnil, -⟩ := h
        cases hnil
      · simp only [bind_eq_ok_iff, Except.ok.injEq, Prod.mk.injEq, Prod.exists] at h
        obtain ⟨value, hvalue, missing, others, hrest, rfl, rfl⟩ := h
        exact .cons ⟨rfl, normalizeInputValue_admits hvalue⟩ (ih hrest)

theorem normalizeInputValues_of_suppliedText {inputs : List Input} {values : RecordedValues}
    (h : List.Forall₂ (fun input entry => entry.1 = input.name
      ∧ ∃ raw, suppliedText supplied input.name = some raw
        ∧ normalizeInputValue tables input raw = .ok entry.2) inputs values) :
    normalizeInputValues tables supplied inputs = .ok ([], values) := by
  induction h with
  | nil => rfl
  | @cons input entry _ _ hentry _ ih =>
      obtain ⟨hname, raw, hraw, hvalue⟩ := hentry
      simp only [normalizeInputValues, hraw, hvalue, ih]
      exact congrArg (fun e => Except.ok ([], e :: _)) (Prod.ext hname.symm rfl)

/-- Some texts are supplied for all inputs. -/
theorem exists_supplied {inputs : List Input} {values : RecordedValues}
    (hsound : InputsSound tables inputs) (hvalues : Admissible inputs values) :
    ∃ supplied : List (Text × Value), supplied.map Prod.fst = inputs.map (·.name)
      ∧ List.Forall₂ (fun input entry => entry.1 = input.name
        ∧ ∃ raw, suppliedText supplied input.name = some raw
          ∧ normalizeInputValue tables input raw = .ok entry.2) inputs values := by
  induction hvalues with
  | nil => exact ⟨[], rfl, .nil⟩
  | @cons input entry rest _ hentry _ ih =>
      obtain ⟨hname, hadmits⟩ := hentry
      obtain ⟨hnew, hnames⟩ := List.nodup_cons.mp hsound.names
      have hone : InputsSound tables [input] :=
        ⟨List.nodup_singleton _, fun i hi => hsound.bounds i (by simp_all),
          fun i hi => hsound.choices i (by simp_all)⟩
      have hrest : InputsSound tables rest :=
        ⟨hnames, fun i hi => hsound.bounds i (List.mem_cons_of_mem _ hi),
          fun i hi => hsound.choices i (List.mem_cons_of_mem _ hi)⟩
      obtain ⟨t, htrim, hne, hvalue⟩ := exists_suppliedText hone hadmits
      obtain ⟨supplied, hkeys, hall⟩ := ih hrest
      refine ⟨(input.name, .str t) :: supplied, by simp [hkeys], .cons ⟨hname, t, ?_, hvalue⟩ ?_⟩
      · simp [suppliedText, mapGet, Value.toText, htrim, hne]
      · -- another name is looked up behind the new entry
        have hne : ∀ i ∈ rest, i.name ≠ input.name := fun i hi heq =>
          hnew (List.mem_map.mpr ⟨i, hi, heq⟩)
        refine ((List.forall₂_and_left _ _).mpr ⟨hne, hall⟩).imp ?_
        rintro other entry ⟨hother, hname, raw, hraw, hvalue⟩
        refine ⟨hname, raw, ?_, hvalue⟩
        rwa [suppliedText, mapGet, List.find?_cons_of_neg (by simpa using Ne.symm hother)]

/-- **What a phase can record** for a decision are the admissible values. -/
theorem normalizeDecisionInputValues_iff {decision : Decision} {values : RecordedValues}
    (hsound : InputsSound tables decision.inputs) :
    (∃ supplied, normalizeDecisionInputValues tables decision supplied = .ok values)
      ↔ Admissible decision.inputs values := by
  constructor
  · rintro ⟨supplied, h⟩
    simp only [normalizeDecisionInputValues, bind_eq_ok_iff, failIf_eq_ok_iff, exists_const,
      Except.ok.injEq, Prod.exists, ne_eq, not_not] at h
    obtain ⟨-, missing, values', hvalues, rfl, rfl⟩ := h
    exact normalizeInputValues_admissible hvalues
  · intro hvalues
    obtain ⟨supplied, hkeys, hall⟩ := exists_supplied hsound hvalues
    have hknown : ∀ name ∈ supplied.map Prod.fst,
        ¬ (!decision.inputs.any (·.name = name)) = true := by
      intro name hname
      rw [hkeys] at hname
      obtain ⟨input, hinput, rfl⟩ := List.mem_map.mp hname
      have hany : decision.inputs.any (·.name = input.name) = true :=
        List.any_eq_true.mpr ⟨input, hinput, decide_eq_true rfl⟩
      rw [hany]
      exact Bool.false_ne_true
    refine ⟨supplied, ?_⟩
    simp only [normalizeDecisionInputValues, List.filter_eq_nil_iff.mpr hknown,
      normalizeInputValues_of_suppliedText hall]
    rfl

end Story

end SingularityFlow
