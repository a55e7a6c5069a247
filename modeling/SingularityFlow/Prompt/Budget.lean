/-
# Compiling a prompt under a token budget

A prompt that does not fit gives up its optional sections one after the other,
the least important first, until it fits or only the mandatory ones are left.
What has been given up is named in a capsule at the end of the text, and the
capsule grows with it, so the text need not become shorter from one round to
the next; the loop ends because there are only so many sections to give up
(`evict_spec`).

Nothing is lost track of (`compilePromptSections_lossless`): the sections that
are delivered and those that are omitted make up the input, the delivered ones
stand whole and in order in the text, the omitted ones are the first of the
eviction order, and the capsule accounts for all of them.
-/
import SingularityFlow.Prompt.Sections

namespace SingularityFlow

open Ecma

namespace Prompt

/-! ## The policy -/

inductive Mode where
  | off
  | observe
  | assist
  | enforce
deriving DecidableEq

/-- `policyOnBudgetBreach`. -/
inductive Breach where
  | refuse
  | allowed
deriving DecidableEq

/-- A profile within the bounds that normalization checks. -/
structure Profile where
  id : Text
  maximumEstimatedPromptTokens : Nat
  observationCapsuleTokens : Nat
  policyOnBudgetBreach : Breach
  bounds : 1024 ≤ maximumEstimatedPromptTokens ∧ maximumEstimatedPromptTokens ≤ 1000000
    ∧ observationCapsuleTokens ≤ 1000000

/-- A normalized policy with its selected profile. -/
structure Policy where
  mode : Mode
  /-- `composer === 'tkr-v1'`. -/
  candidateComposer : Bool
  profile : Profile

structure Options where
  tokenAdmission : TokenAdmission
  tokenCounter : Option (Text → Value)

def Policy.maximumBytes (policy : Policy) : Nat := policy.profile.maximumEstimatedPromptTokens * 4

def Policy.capsuleMaximumBytes (policy : Policy) : Nat :=
  max 256 (policy.profile.observationCapsuleTokens * 4)

/-- `value ?? fallback`. -/
def nullish (value fallback : Option Value) : Option Value :=
  if isNullish value then fallback else value

def admissionFor (text : Text) (profile : Profile) (options : Options) :
    Except Failure Admission :=
  let supplied := options.tokenAdmission
  assessTokenAdmission (byteLength text)
    { supplied with
      logicalPromptTokens := match options.tokenCounter with
        | some counter => some (.obj [(js "value", counter text),
            (js "assurance", .str (js "tokenizer-exact"))])
        | none => supplied.logicalPromptTokens
      maximumInputTokens := nullish supplied.maximumInputTokens
        (some (.num (Number.ofNat profile.maximumEstimatedPromptTokens))) }

def fits (text : Text) (policy : Policy) (options : Options) : Except Failure Bool := do
  let admission ← admissionFor text policy.profile options
  return match policy.mode with
    | .enforce => admission.safeToEnforce && admission.admitted == some true
    | _ => decide (byteLength text ≤ policy.maximumBytes)

/-! ## Eviction -/

/-- `right.priority - left.priority || right.index - left.index`, not above zero. -/
def GivenUpBefore (left right : Section) : Prop :=
  right.priority.units < left.priority.units
    ∨ (right.priority.units = left.priority.units ∧ right.index ≤ left.index)

instance : DecidableRel GivenUpBefore := fun _ _ => inferInstanceAs (Decidable (_ ∨ _))

instance : Std.Total GivenUpBefore := ⟨fun a b => by unfold GivenUpBefore; omega⟩

instance : IsTrans Section GivenUpBefore :=
  ⟨fun a b c hab hbc => by unfold GivenUpBefore at *; omega⟩

/-- The optional sections in the order in which they are given up. -/
def evictionOrder (sections : List Section) : List Section :=
  (sections.filter fun s => !s.mandatory).insertionSort GivenUpBefore

/-- `selected.splice(selected.findIndex(…), 1)`, which takes the last one when none is found. -/
def spliceById (selected : List Section) (id : Text) : List Section :=
  match selected.findIdx? fun s => s.id = id with
  | some i => selected.eraseIdx i
  | none => selected.dropLast

/-- `renderedSelection`; the capsule's index is above all others. -/
def renderedSelection (policy : Policy) (selected omitted : List Section) : Text :=
  renderTexts ((selected.insertionSort fun a b => a.index ≤ b.index).map Section.canonicalText
    ++ (omissionCapsule omitted policy.capsuleMaximumBytes).toList)

/-- Where the loop stops. -/
structure Eviction where
  selected : List Section
  omitted : List Section
  text : Text
  fits : Bool

/-- The loop over the removable sections. -/
def evict (policy : Policy) (options : Options) :
    List Section → List Section → List Section → Except Failure Eviction
  | [], selected, omitted => do
      let text := renderedSelection policy selected omitted
      let fit ← fits text policy options
      return ⟨selected, omitted, text, fit⟩
  | removed :: removable, selected, omitted => do
      let text := renderedSelection policy selected omitted
      let fit ← fits text policy options
      if fit then return ⟨selected, omitted, text, true⟩
      else evict policy options removable (spliceById selected removed.id) (omitted ++ [removed])

/-! ## The compiler -/

inductive Compliance where
  | compliant
  | partialNonCompliant
  | overBudgetObserved
deriving DecidableEq

/-- What `report` returns of a compiled prompt. -/
structure Report where
  text : Text
  admission : Admission
  compliance : Compliance
  originalBytes : Nat
  finalBytes : Nat
  /-- The sections, and whether each is included. -/
  sections : List (Section × Bool)
  omitted : List Section
  budgetEvictedPromptBytes : Nat

def report (policy : Policy) (options : Options) (sections : List Section) (original : Text)
    (selected omitted : List Section) (text : Text) (compliance : Compliance) :
    Except Failure Report := do
  let admission ← admissionFor text policy.profile options
  return {
    text, admission, compliance, omitted
    originalBytes := byteLength original
    finalBytes := byteLength text
    sections := sections.map fun s => (s, decide (s.id ∈ selected.map Section.id))
    budgetEvictedPromptBytes := (omitted.map Section.bytes).sum }

def composerUnsupported : Failure := sectionFailure
  (js "tokenEconomy.composer 'tkr-v1' is a code-local candidate preview and cannot compose a production prompt until TKR M2 is complete.")
  "TKR_CONTRACT_UNSUPPORTED"

def overflowError (policy : Policy) (uncounted : Bool) : Failure :=
  if uncounted then sectionFailure
    (js "Token-economy profile '" ++ policy.profile.id ++ js "' is set to enforce, but this prompt's size can only be estimated here, so it cannot be admitted. Set tokenEconomy.mode to observe (deliver the whole prompt and report its size) or assist (leave out optional context to fit).")
    "TKN_ADMISSION_ASSURANCE_INSUFFICIENT"
  else sectionFailure
    (js "Mandatory phase prompt context does not fit token-economy profile '"
      ++ policy.profile.id ++ js "'.") "TKN_MANDATORY_CONTEXT_OVERFLOW"

def originalFits (policy : Policy) (admission : Admission) (original : Text) : Bool :=
  match policy.mode with
  | .enforce => admission.admitted == some true
  | _ => decide (byteLength original ≤ policy.maximumBytes)

def compilePromptSections (inputs : List Input) (policy : Policy) (options : Options) :
    Except Failure Report := do
  failIf (policy.mode ≠ .off ∧ policy.candidateComposer = true) composerUnsupported
  let sections ← normalizeSections inputs
  let original := renderTexts (sections.map Section.canonicalText)
  let admission ← admissionFor original policy.profile options
  failIf (policy.mode = .enforce ∧ admission.safeToEnforce = false) (overflowError policy true)
  if !(policy.mode == .assist || policy.mode == .enforce)
      || originalFits policy admission original then
    report policy options sections original sections [] original
      (if originalFits policy admission original then .compliant else .overBudgetObserved)
  else do
    let outcome ← evict policy options (evictionOrder sections) sections []
    if outcome.fits then
      report policy options sections original outcome.selected outcome.omitted outcome.text
        .compliant
    else if policy.mode = .enforce ∨ policy.profile.policyOnBudgetBreach = .refuse then
      .error (overflowError policy false)
    else
      report policy options sections original outcome.selected outcome.omitted outcome.text
        .partialNonCompliant

/-! ## Text -/

theorem infix_joinWith {sep t : Text} : ∀ {parts : List Text}, t ∈ parts →
    t <:+: joinWith sep parts
  | [], h => absurd h (by simp)
  | [u], h => by rw [List.mem_singleton.mp h]; exact List.infix_rfl
  | u :: v :: rest, h => by
      show t <:+: u ++ sep ++ joinWith sep (v :: rest)
      rcases List.mem_cons.mp h with rfl | h
      · exact ⟨[], sep ++ joinWith sep (v :: rest), by simp⟩
      · exact (infix_joinWith h).trans (List.suffix_append _ _).isInfix

/-- A text stands whole among the rendered ones. -/
theorem infix_renderTexts {t : Text} {texts : List Text} (h : t ∈ texts) :
    t <:+: renderTexts texts := by
  by_cases hne : t = []
  · rw [hne]; exact List.nil_infix
  · have hbody : t <:+: joinWith (js "\n\n") (texts.filter (· ≠ [])) :=
      infix_joinWith (List.mem_filter.mpr ⟨h, decide_eq_true hne⟩)
    unfold renderTexts
    dsimp only
    split
    · next hnil => rwa [hnil] at hbody
    · exact hbody.trans (List.prefix_append _ _).isInfix

/-! ## What the loop keeps -/

/-- Splicing takes out the one section of that name. -/
theorem spliceById_eq {s : Section} : ∀ {selected : List Section},
    (selected.map Section.id).Nodup → s ∈ selected →
      spliceById selected s.id = selected.filter fun t => t.id ≠ s.id
  | [], _, h => absurd h (by simp)
  | t :: selected, hids, h => by
      rw [List.map_cons, List.nodup_cons] at hids
      by_cases ht : t.id = s.id
      · have hkeep : (selected.filter fun t => t.id ≠ s.id) = selected := by
          refine List.filter_eq_self.mpr fun x hx => ?_
          simp only [ne_eq, decide_eq_true_eq]
          exact fun heq => hids.1 (ht ▸ heq ▸ List.mem_map_of_mem hx)
        rw [List.filter_cons_of_neg (by simp [ht]), hkeep]
        simp [spliceById, List.findIdx?_cons, ht]
      · have hmem : s ∈ selected := (List.mem_cons.mp h).resolve_left fun heq => ht (heq ▸ rfl)
        have ih := spliceById_eq hids.2 hmem
        rw [List.filter_cons_of_pos (by simp [ht]), ← ih]
        have hsome : (selected.findIdx? fun t => t.id = s.id).isSome := by
          rw [List.findIdx?_isSome]
          exact List.any_eq_true.mpr ⟨s, hmem, by simp⟩
        obtain ⟨i, hi⟩ := Option.isSome_iff_exists.mp hsome
        simp [spliceById, List.findIdx?_cons, ht, hi]

variable {policy : Policy} {options : Options}

/-- **The loop gives up a prefix of the removable sections** and keeps all others. -/
theorem evict_spec : ∀ {removable selected omitted : List Section} {outcome : Eviction},
    (selected.map Section.id).Nodup → (∀ s ∈ removable, s ∈ selected) →
      (removable.map Section.id).Nodup →
      evict policy options removable selected omitted = .ok outcome →
      ∃ done, done <+: removable ∧ outcome.omitted = omitted ++ done
        ∧ outcome.selected = selected.filter (fun s => s.id ∉ done.map Section.id)
        ∧ outcome.text = renderedSelection policy outcome.selected outcome.omitted
        ∧ fits outcome.text policy options = .ok outcome.fits
  | [], selected, omitted, outcome, _, _, _, h => by
      obtain ⟨fit, hfit, h⟩ := bind_eq_ok_iff.mp h
      obtain rfl := Except.ok.inj h
      exact ⟨[], List.prefix_rfl, by simp, by simp, rfl, hfit⟩
  | removed :: removable, selected, omitted, outcome, hids, hsub, hnodup, h => by
      obtain ⟨fit, hfit, h⟩ := bind_eq_ok_iff.mp h
      cases fit with
      | true =>
          obtain rfl := Except.ok.inj h
          exact ⟨[], List.nil_prefix, by simp, by simp, rfl, hfit⟩
      | false =>
          rw [if_neg (by simp), spliceById_eq hids (hsub removed (List.mem_cons_self ..))] at h
          rw [List.map_cons, List.nodup_cons] at hnodup
          have hsub' : ∀ s ∈ removable, s ∈ selected.filter fun t => t.id ≠ removed.id := by
            intro s hs
            refine List.mem_filter.mpr ⟨hsub s (List.mem_cons_of_mem _ hs), ?_⟩
            simp only [ne_eq, decide_eq_true_eq]
            exact fun heq => hnodup.1 (heq ▸ List.mem_map_of_mem hs)
          obtain ⟨done, hdone, homitted, hselected, htext, hfits⟩ :=
            evict_spec (hids.sublist (List.filter_sublist.map _)) hsub' hnodup.2 h
          refine ⟨removed :: done, List.cons_prefix_cons.mpr ⟨rfl, hdone⟩, ?_, ?_, htext, hfits⟩
          · rw [homitted, List.append_assoc, List.singleton_append]
          · rw [hselected, List.filter_filter]
            refine List.filter_congr fun s _ => ?_
            simp only [List.map_cons, List.mem_cons, not_or, ne_eq, decide_not, Bool.decide_and]
            exact Bool.and_comm _ _

theorem evictionOrder_perm (sections : List Section) :
    (evictionOrder sections).Perm (sections.filter fun s => !s.mandatory) :=
  List.perm_insertionSort _ _

theorem evictionOrder_sorted (sections : List Section) :
    (evictionOrder sections).Pairwise GivenUpBefore := List.pairwise_insertionSort _ _

/-! ## What a report says -/

/-- The sections that a report says are included. -/
def Report.included (r : Report) : List Section := (r.sections.filter Prod.snd).map Prod.fst

/-- The sections of a report, included or not. -/
def Report.all (r : Report) : List Section := r.sections.map Prod.fst

/-- No section is lost: what a report says of the sections and what its text holds agree. -/
structure Lossless (inputs : List Input) (policy : Policy) (options : Options) (r : Report) :
    Prop where
  normal : Normal inputs r.all
  ordered : r.text = renderTexts (r.included.map Section.canonicalText
    ++ (omissionCapsule r.omitted policy.capsuleMaximumBytes).toList)
  whole : ∀ s ∈ r.included, s.canonicalText <:+: r.text
  exact : ∀ s ∈ r.included, s.exact = true → ∃ input, inputs[s.index]? = some input
    ∧ input.text = s.canonicalText
  mandatory : ∀ s ∈ r.all, s.mandatory = true → s ∈ r.included
  evicted : ∃ order, order.Perm (r.all.filter fun s => !s.mandatory)
    ∧ order.Pairwise GivenUpBefore ∧ r.omitted <+: order
  partition : r.included.Sublist r.all ∧ (r.included ++ r.omitted).Perm r.all
  capsule : ∀ first rest, r.omitted = first :: rest → ∃ capsule, capsule <:+: r.text
    ∧ byteLength capsule ≤ policy.capsuleMaximumBytes
    ∧ (byteLength (capsuleText [first] rest.length) ≤ policy.capsuleMaximumBytes →
        ∃ named remainder, named ≠ [] ∧ named <+: r.omitted
          ∧ named.length + remainder = r.omitted.length ∧ capsule = capsuleText named remainder)
  admitted : admissionFor r.text policy.profile options = .ok r.admission
  limit : r.compliance = .compliant →
    (policy.mode = .assist → byteLength r.text ≤ policy.maximumBytes)
      ∧ (policy.mode = .enforce → r.admission.admitted = some true)

variable {inputs : List Input} {sections selected omitted : List Section} {original text : Text}
  {compliance : Compliance} {r : Report}

/-- What fits is within the limit of its mode. -/
theorem limit_of_fits {admission : Admission}
    (hadmission : admissionFor text policy.profile options = .ok admission)
    (h : fits text policy options = .ok true) :
    (policy.mode = .assist → byteLength text ≤ policy.maximumBytes)
      ∧ (policy.mode = .enforce → admission.admitted = some true) := by
  obtain ⟨admission', hadmission', h⟩ := bind_eq_ok_iff.mp h
  obtain rfl := Except.ok.inj (hadmission.symm.trans hadmission')
  have hfit := Except.ok.inj h
  constructor
  · intro hmode
    rw [hmode] at hfit
    exact of_decide_eq_true hfit
  · intro hmode
    rw [hmode] at hfit
    rw [Bool.and_eq_true] at hfit
    exact beq_iff_eq.mp hfit.2

/-- Without the ones given up, the sections are those of other names. -/
theorem partition_of_prefix (hids : (sections.map Section.id).Nodup)
    (hfirst : omitted <+: evictionOrder sections) :
    (sections.filter (fun s => s.id ∉ omitted.map Section.id) ++ omitted).Perm sections := by
  have hsub : ∀ s ∈ omitted, s ∈ sections := fun s hs =>
    List.mem_of_mem_filter ((evictionOrder_perm sections).mem_iff.mp (hfirst.subset hs))
  have horder : (evictionOrder sections).Nodup :=
    (evictionOrder_perm sections).nodup_iff.mpr ((List.Nodup.of_map _ hids).filter _)
  have hgone : (sections.filter fun s => !decide (s.id ∉ omitted.map Section.id)).Perm omitted := by
    refine (List.perm_ext_iff_of_nodup ((List.Nodup.of_map _ hids).filter _)
      (horder.sublist hfirst.sublist)).mpr fun s => ?_
    simp only [List.mem_filter, decide_not, Bool.not_not, decide_eq_true_eq]
    constructor
    · rintro ⟨hs, hid⟩
      obtain ⟨t, ht, hname⟩ := List.mem_map.mp hid
      rwa [← List.inj_on_of_nodup_map hids (hsub t ht) hs hname]
    · exact fun hs => ⟨hsub s hs, List.mem_map_of_mem hs⟩
  exact (hgone.symm.append_left _).trans (List.filter_append_perm _ _)

/-- A report about sections of which a prefix of the eviction order is omitted is lossless. -/
theorem lossless_of_report (hnormal : Normal inputs sections)
    (hfirst : omitted <+: evictionOrder sections)
    (hselected : selected = sections.filter fun s => s.id ∉ omitted.map Section.id)
    (htext : text = renderTexts (selected.map Section.canonicalText
      ++ (omissionCapsule omitted policy.capsuleMaximumBytes).toList))
    (hlimit : compliance = .compliant → fits text policy options = .ok true)
    (h : report policy options sections original selected omitted text compliance = .ok r) :
    Lossless inputs policy options r := by
  obtain ⟨admission, hadmission, h⟩ := bind_eq_ok_iff.mp h
  obtain rfl := Except.ok.inj h
  have hall : Report.all ⟨text, admission, compliance, byteLength original, byteLength text,
      sections.map fun s => (s, decide (s.id ∈ selected.map Section.id)), omitted,
      (omitted.map Section.bytes).sum⟩ = sections := by
    simp [Report.all, Function.comp_def]
  have hincluded : Report.included ⟨text, admission, compliance, byteLength original,
      byteLength text, sections.map fun s => (s, decide (s.id ∈ selected.map Section.id)), omitted,
      (omitted.map Section.bytes).sum⟩ = selected := by
    rw [Report.included, List.filter_map, List.map_map, hselected]
    refine (List.map_id _).trans (List.filter_congr fun s hs => ?_)
    simp only [Function.comp_apply, decide_eq_decide]
    constructor
    · intro hid
      obtain ⟨t, ht, hname⟩ := List.mem_map.mp hid
      have := (List.mem_filter.mp ht).2
      rwa [decide_eq_true_eq, hname] at this
    · exact fun hid => List.mem_map_of_mem (List.mem_filter.mpr ⟨hs, decide_eq_true hid⟩)
  have hwhole : ∀ s ∈ selected, s.canonicalText <:+: text := fun s hs =>
    htext ▸ infix_renderTexts (List.mem_append_left _ (List.mem_map_of_mem hs))
  have hmem : ∀ s ∈ selected, s ∈ sections := fun s hs =>
    List.mem_of_mem_filter (hselected ▸ hs)
  refine ⟨?_, ?_, ?_, ?_, ?_, ?_, ?_, ?_, hadmission, fun hc => limit_of_fits hadmission (hlimit hc)⟩
  · rwa [hall]
  · rwa [hincluded]
  · rwa [hincluded]
  · rw [hincluded]
    intro s hs hexact
    obtain ⟨input, hinput, hs'⟩ := hnormal.source s (hmem s hs)
    refine ⟨input, hinput, ?_⟩
    have hflag : input.exact = true := by rw [hs'] at hexact; exact hexact
    rw [hs']
    simp [normalizeSection, canonicalText, hflag]
  · rw [hall, hincluded]
    intro s hs hmandatory
    rw [hselected]
    refine List.mem_filter.mpr ⟨hs, decide_eq_true fun hid => ?_⟩
    obtain ⟨t, ht, hname⟩ := List.mem_map.mp hid
    have ht' := (evictionOrder_perm sections).mem_iff.mp (hfirst.subset ht)
    obtain ⟨htsections, htoptional⟩ := List.mem_filter.mp ht'
    rw [List.inj_on_of_nodup_map hnormal.ids htsections hs hname, hmandatory] at htoptional
    cases htoptional
  · rw [hall]
    exact ⟨_, evictionOrder_perm sections, evictionOrder_sorted sections, hfirst⟩
  · rw [hall, hincluded, hselected]
    exact ⟨List.filter_sublist, partition_of_prefix hnormal.ids hfirst⟩
  · rintro first rest rfl
    obtain ⟨capsule, hcapsule⟩ : ∃ capsule,
        omissionCapsule (first :: rest) policy.capsuleMaximumBytes = some capsule := ⟨_, rfl⟩
    refine ⟨capsule, ?_, byteLength_omissionCapsule hcapsule, fun hone => ?_⟩
    · rw [htext, hcapsule]
      exact infix_renderTexts (List.mem_append_right _ (List.mem_singleton_self _))
    · obtain ⟨named, remainder, hne, hnamed, hcount, htext'⟩ := omissionCapsule_counts hone
      exact ⟨named, remainder, hne, hnamed, hcount,
        Option.some.inj (hcapsule.symm.trans htext')⟩

/-- **Prompt budgeting loses track of nothing**: whatever the sections and the
limits, a prompt that is compiled under an assisting or an enforcing policy
holds what it says it holds, has given up only what the order of eviction gives
up first, names or counts all of that, and is within its limit when it is said
to be compliant. -/
theorem compilePromptSections_lossless (inputs : List Input) (policy : Policy) (options : Options)
    (hmode : policy.mode = .assist ∨ policy.mode = .enforce) (r : Report)
    (h : compilePromptSections inputs policy options = .ok r) :
    Lossless inputs policy options r := by
  obtain ⟨_, -, h⟩ := bind_eq_ok_iff.mp h
  obtain ⟨sections, hsections, h⟩ := bind_eq_ok_iff.mp h
  obtain ⟨admission, hadmission, h⟩ := bind_eq_ok_iff.mp h
  obtain ⟨_, hevidence, h⟩ := bind_eq_ok_iff.mp h
  have hnormal := normal_of_normalizeSections hsections
  have hbudget : (policy.mode == .assist || policy.mode == .enforce) = true := by
    rcases hmode with hmode | hmode <;> simp [hmode]
  rw [hbudget, Bool.not_true, Bool.false_or] at h
  split at h
  · next hfits =>
    refine lossless_of_report hnormal List.nil_prefix (by simp) (by simp [omissionCapsule])
      (fun _ => ?_) h
    refine bind_eq_ok_iff.mpr ⟨admission, hadmission, congrArg Except.ok ?_⟩
    have hsafe := failIf_eq_ok_iff.mp hevidence
    rw [originalFits] at hfits
    rcases hmode with hmode | hmode
    · simpa only [hmode] using hfits
    · simp only [hmode, true_and, Bool.not_eq_false] at hsafe hfits ⊢
      rw [hsafe, hfits]
      rfl
  · obtain ⟨outcome, houtcome, h⟩ := bind_eq_ok_iff.mp h
    obtain ⟨done, hdone, homitted, hselected, htext, hfits⟩ := evict_spec hnormal.ids
      (fun s hs => List.mem_of_mem_filter ((evictionOrder_perm sections).mem_iff.mp hs))
      (((evictionOrder_perm sections).map Section.id).nodup_iff.mpr
        (hnormal.ids.sublist (List.filter_sublist.map _))) houtcome
    rw [List.nil_append] at homitted
    have hsorted : outcome.selected.insertionSort (fun a b => a.index ≤ b.index)
        = outcome.selected := by
      refine List.Pairwise.insertionSort_eq ?_
      rw [hselected]
      exact (hnormal.increasing.imp fun h => Nat.le_of_lt h).sublist List.filter_sublist
    rw [renderedSelection, hsorted] at htext
    have hlossless : ∀ {compliance : Compliance},
        (compliance = .compliant → outcome.fits = true) →
        report policy options sections (renderTexts (sections.map Section.canonicalText))
          outcome.selected outcome.omitted outcome.text compliance = .ok r →
        Lossless inputs policy options r := fun hcompliance hreport =>
      lossless_of_report hnormal (homitted ▸ hdone) (homitted ▸ hselected) htext
        (fun hc => by rw [hfits, hcompliance hc]) hreport
    split at h
    · next hfit => exact hlossless (fun _ => hfit) h
    · split at h
      · cases h
      · exact hlossless (fun hc => by cases hc) h

/-- The profile that is used when none is configured. -/
def standardProfile : Profile := ⟨js "standard", 18000, 3000, .refuse, by decide⟩

def noOptions : Options := ⟨⟨none, none, none, none, false⟩, none⟩

/-- A prompt that fits is compiled. -/
theorem compilePromptSections_lossless_law : ∃ r,
    compilePromptSections [⟨js "law", js "Be exact.", false, true, none, []⟩,
        ⟨js "notes", js " an example ", true, false, none, []⟩]
      ⟨.assist, false, standardProfile⟩ noOptions = .ok r
    ∧ Lossless [⟨js "law", js "Be exact.", false, true, none, []⟩,
        ⟨js "notes", js " an example ", true, false, none, []⟩]
      ⟨.assist, false, standardProfile⟩ noOptions r := by
  cases h : compilePromptSections [⟨js "law", js "Be exact.", false, true, none, []⟩,
      ⟨js "notes", js " an example ", true, false, none, []⟩]
      ⟨.assist, false, standardProfile⟩ noOptions with
  | ok r => exact ⟨r, rfl, compilePromptSections_lossless _ _ _ (.inl rfl) r h⟩
  | error e =>
      have hok : (compilePromptSections [⟨js "law", js "Be exact.", false, true, none, []⟩,
          ⟨js "notes", js " an example ", true, false, none, []⟩]
          ⟨.assist, false, standardProfile⟩ noOptions).isOk = true := by decide +kernel
      rw [h] at hok
      cases hok

end Prompt

end SingularityFlow
