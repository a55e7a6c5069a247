/-
# What the overrides of a profile keep

The validation establishes rules for the phases of a profile: what an output
consumes is made by an earlier phase, the outputs of a phase differ in their
identifiers and in their paths, kinds are supported, policies are normalized and
ask authorities that exist.  Policies are normalized where they are overridden,
and stay so.  The other fields of an output take whatever an override carries.

`keepsRules_iff` says when the rules hold of the resolved phases: when the
overrides themselves, for the identifiers, paths, kinds and inputs that they
carry, keep to them.
-/
import SingularityFlow.Initiative.Portfolio
import SingularityFlow.Lib.Run

namespace SingularityFlow

open Ecma Ecma.Value

namespace Initiatives

/-! ## The rules -/

/-- Texts, no two of them the same. -/
def DistinctTexts (values : List Value) : Prop :=
  ∃ texts : List Text, values = texts.map Value.str ∧ texts.Nodup

/-- A reference names an output of one of some phases. -/
def NamesOutput (phases : List ResolvedPhase) (reference : Text) : Prop :=
  isReference reference = true ∧ ∃ producer ∈ phases,
    producer.id = .str (referencePhase reference)
      ∧ ∃ output ∈ producer.outputs, output.id = .str (referenceOutput reference)

def ResolvedPhase.approvals (phase : ResolvedPhase) : List ApprovalPolicy :=
  phase.bundleApproval :: phase.outputs.map ResolvedOutput.approval
    ++ phase.checklist.map CatalogCheck.approval

/-- A policy is normalized, and the portfolio answers for its authorities. -/
structure Established (authorities : List (Text × List Text)) (policy : ApprovalPolicy) : Prop where
  normalized : Normalized policy
  known : ∀ id ∈ policy.authorities, answers authorities id = true

/-- The rules of the validation, for resolved phases. -/
structure KeepsRules (authorities : List (Text × List Text)) (phases : List ResolvedPhase) : Prop where
  consumes : ∀ before phase after, phases = before ++ phase :: after → ∀ output ∈ phase.outputs,
    ∃ references : List Text, output.consumes = .arr (references.map Value.str)
      ∧ ∀ reference ∈ references, NamesOutput before reference
  ids : ∀ phase ∈ phases, DistinctTexts (phase.outputs.map ResolvedOutput.id)
  paths : ∀ phase ∈ phases, DistinctTexts (phase.outputs.map ResolvedOutput.path)
  kinds : ∀ phase ∈ phases, ∀ output ∈ phase.outputs, ∃ kind ∈ outputKinds, output.kind = .str kind
  approvals : ∀ phase ∈ phases, ∀ policy ∈ phase.approvals, Established authorities policy

/-! ## The condition on overrides -/

/-- The phases of the catalog that a profile lists. -/
def Profile.active (profile : Profile) (catalog : List (Text × CatalogPhase)) : List ActivePhase :=
  profile.phases.filterMap fun id => (mapGet catalog id.toText).map fun phase => ⟨id, phase⟩

def Profile.phaseOverride (profile : Profile) (entry : ActivePhase) : PhaseOverride :=
  (mapGet profile.phaseOverrides entry.id.toText).getD ⟨none, []⟩

/-- What a profile overrides of an output. -/
def Profile.override (profile : Profile) (entry : ActivePhase) (output : CatalogOutput) :
    OutputOverride :=
  (profile.phaseOverride entry).output output.id

/-- A member that an override carries. -/
def OutputOverride.carried (override : OutputOverride) (name : String) : Option Value :=
  mapGet override.members (js name)

/-- The identifier of an output, unless it is overridden. -/
def Profile.outputId (profile : Profile) (entry : ActivePhase) (output : CatalogOutput) : Value :=
  (profile.override entry output).over "id" (.str output.id)

def Profile.outputPath (profile : Profile) (entry : ActivePhase) (output : CatalogOutput) : Value :=
  (profile.override entry output).over "path" (.str output.path)

/-- One of some phases makes an output by the name of a reference, after the
overrides of identifiers. -/
def Profile.Makes (profile : Profile) (phases : List ActivePhase) (reference : Text) : Prop :=
  ∃ producer ∈ phases, producer.id = .str (referencePhase reference)
    ∧ ∃ output ∈ producer.phase.outputs,
      profile.outputId producer output = .str (referenceOutput reference)

/-- Overrides that keep to the rules in what they carry. -/
structure OverridesFit (catalog : List (Text × CatalogPhase)) (profile : Profile) : Prop where
  ids : ∀ entry ∈ profile.active catalog,
    DistinctTexts (entry.phase.outputs.map (profile.outputId entry))
  paths : ∀ entry ∈ profile.active catalog,
    DistinctTexts (entry.phase.outputs.map (profile.outputPath entry))
  kinds : ∀ entry ∈ profile.active catalog, ∀ output ∈ entry.phase.outputs, ∀ kind,
    (profile.override entry output).carried "kind" = some kind → ∃ text ∈ outputKinds, kind = .str text
  /-- Inputs that are overridden come from earlier phases. -/
  consumes : ∀ before entry after, profile.active catalog = before ++ entry :: after →
    ∀ output ∈ entry.phase.outputs, ∀ value,
      (profile.override entry output).carried "consumes" = some value →
        ∃ references : List Text, value = .arr (references.map Value.str)
          ∧ ∀ reference ∈ references, isReference reference = true ∧ profile.Makes before reference
  /-- Inputs that are not overridden keep their names. -/
  consumed : ∀ entry ∈ profile.active catalog, ∀ output ∈ entry.phase.outputs,
    (profile.override entry output).carried "consumes" = none →
      ∀ reference ∈ output.consumes, profile.Makes (profile.active catalog) reference

/-! ## What the validation establishes -/

/-- What is established of the phases that a profile lists. -/
structure Validated (authorities : List (Text × List Text)) (active : List ActivePhase) : Prop where
  kinds : ∀ entry ∈ active, ∀ output ∈ entry.phase.outputs, output.kind ∈ outputKinds
  references : ∀ entry ∈ active, ∀ output ∈ entry.phase.outputs, ∀ reference ∈ output.consumes,
    isReference reference = true
  consumes : ∀ before entry after, active = before ++ entry :: after →
    ∀ output ∈ entry.phase.outputs, ∀ reference ∈ output.consumes, ∃ producer ∈ before,
      producer.id = .str (referencePhase reference)
  approvals : ∀ entry ∈ active, ∀ policy ∈ entry.phase.approvals, Established authorities policy

/-- What is established of the policies that a profile overrides. -/
structure ValidatedOverrides (authorities : List (Text × List Text)) (profile : Profile) : Prop where
  bundle : ∀ entry ∈ profile.phaseOverrides, ∀ policy, entry.2.bundleApproval = some policy →
    Established authorities policy
  output : ∀ entry ∈ profile.phaseOverrides, ∀ override ∈ entry.2.outputs, ∀ policy,
    override.2.approval = some policy → Established authorities policy

theorem of_entries {α : Type} {value : Value} {label : Text} {read : Text → Value → Except Failure α}
    {l : List (Text × α)} (h : entries value label read = .ok l) :
    ∀ entry ∈ l, ∃ v, read entry.1 v = .ok entry.2 := by
  obtain ⟨members, -, h⟩ := bind_eq_ok_iff.mp h
  intro entry hmem
  obtain ⟨member, -, hread⟩ := (mem_of_sequence h).mp hmem
  obtain ⟨a, ha, hentry⟩ := bind_eq_ok_iff.mp hread
  obtain rfl := Except.ok.inj hentry
  exact ⟨member.2, ha⟩

theorem normalizeOutput_eq_ok {phaseId : Text} {index : Nat} {value : Value} {output : CatalogOutput}
    (h : normalizeOutput phaseId index value = .ok output) :
    output.kind ∈ outputKinds ∧ (∀ reference ∈ output.consumes, isReference reference = true)
      ∧ Normalized output.approval := by
  simp only [normalizeOutput, bind_eq_ok_iff] at h
  obtain ⟨_, -, id, -, kind, hkind, path, -, template, -, _, -, _, -, references, -, consumes,
    hconsumes, _, -, approval, happroval, h⟩ := h
  obtain rfl := Except.ok.inj h
  refine ⟨?_, fun reference hmem => ?_, normalizedApproval_normalized happroval⟩
  · unfold outputKind at hkind
    simp only at hkind
    split at hkind
    · next found hfound =>
        obtain rfl := Except.ok.inj hkind
        unfold named at hfound
        split at hfound
        · obtain ⟨member, hmember, heq⟩ := List.mem_map.mp (mem_of_mapGet hfound)
          obtain ⟨-, rfl⟩ := Prod.mk.inj heq
          exact hmember
        · cases hfound
    · cases hkind
  · obtain ⟨written, -, hwritten⟩ := (mem_of_sequence hconsumes).mp hmem
    unfold outputReference at hwritten
    split at hwritten
    · split at hwritten
      · next hreference =>
          obtain rfl := Except.ok.inj hwritten
          exact hreference
      · cases hwritten
    · cases hwritten

theorem normalizeCheck_eq_ok {phaseId : Text} {index : Nat} {value : Value} {check : CatalogCheck}
    (h : normalizeCheck phaseId index value = .ok check) : Normalized check.approval := by
  simp only [normalizeCheck, bind_eq_ok_iff] at h
  obtain ⟨_, -, id, -, h⟩ := h
  split at h
  · simp only [bind_eq_ok_iff] at h
    obtain ⟨_, -, written, -, accepted, -, _, -, h⟩ := h
    split at h
    · simp only [bind_eq_ok_iff] at h
      obtain ⟨applicability, -, revalidateAt, -, approval, happroval, h⟩ := h
      obtain rfl := Except.ok.inj h
      exact normalizedApproval_normalized happroval
    · cases h
  · cases h

/-- A phase of the catalog has supported kinds, references and normalized policies. -/
structure CatalogPhase.Normal (phase : CatalogPhase) : Prop where
  kinds : ∀ output ∈ phase.outputs, output.kind ∈ outputKinds
  references : ∀ output ∈ phase.outputs, ∀ reference ∈ output.consumes, isReference reference = true
  approvals : ∀ policy ∈ phase.approvals, Normalized policy

theorem normalizePhase_eq_ok {id : Text} {value : Value} {phase : CatalogPhase}
    (h : normalizePhase id value = .ok phase) : phase.Normal := by
  simp only [normalizePhase, bind_eq_ok_iff] at h
  obtain ⟨_, -, _, -, outputs, houtputs, _, -, checklist, hchecklist, _, -, _, -, _, -, _, -, _, -,
    _, -, _, -, _, -, bundleApproval, hbundle, h⟩ := h
  obtain rfl := Except.ok.inj h
  have houtput : ∀ output ∈ outputs, output.kind ∈ outputKinds
      ∧ (∀ reference ∈ output.consumes, isReference reference = true)
      ∧ Normalized output.approval := fun output hmem => by
    obtain ⟨i, v, hv⟩ := exists_of_sequence_mapIdx houtputs hmem
    exact normalizeOutput_eq_ok hv
  refine ⟨fun output hmem => (houtput output hmem).1, fun output hmem => (houtput output hmem).2.1,
    fun policy hmem => ?_⟩
  simp only [CatalogPhase.approvals, List.cons_append, List.mem_cons, List.mem_append,
    List.mem_map] at hmem
  rcases hmem with rfl | ⟨output, hmem, rfl⟩ | ⟨check, hmem, rfl⟩
  · exact normalizedApproval_normalized hbundle
  · exact (houtput output hmem).2.2
  · obtain ⟨i, v, hv⟩ := exists_of_sequence_mapIdx hchecklist hmem
    exact normalizeCheck_eq_ok hv

theorem knownAuthorities_eq_ok {authorities : List (Text × List Text)} {policy : ApprovalPolicy}
    {label : Text} {u : Unit} (h : knownAuthorities authorities policy label = .ok u) :
    ∀ id ∈ policy.authorities, answers authorities id = true := by
  unfold knownAuthorities at h
  split at h
  · cases h
  · next hnone => simpa using List.find?_eq_none.mp hnone

theorem overriddenApproval_eq_ok {authorities : List (Text × List Text)} {name : String}
    {value : Value} {label policyLabel : Text} {policy : ApprovalPolicy}
    (h : overriddenApproval authorities name value label policyLabel = .ok (some policy)) :
    Established authorities policy := by
  unfold overriddenApproval at h
  split at h
  · cases h
  · simp only [bind_eq_ok_iff] at h
    obtain ⟨policy', hpolicy, _, hknown, h⟩ := h
    obtain rfl := Option.some.inj (Except.ok.inj h)
    exact ⟨normalizedApproval_normalized hpolicy, knownAuthorities_eq_ok hknown⟩

theorem filterMap_of_sequence {α β : Type} {f : β → Except Failure α} {g : β → Option α}
    {l : List β} {as : List α} (h : sequence (l.map f) = .ok as)
    (hg : ∀ b a, f b = .ok a → g b = some a) : l.filterMap g = as := by
  have heq := sequence_eq_ok h
  clear h
  induction l generalizing as with
  | nil =>
      cases as with
      | nil => rfl
      | cons _ _ => cases heq
  | cons b l ih =>
      cases as with
      | nil => cases heq
      | cons a as =>
          obtain ⟨hhead, htail⟩ := List.cons.inj heq
          rw [List.filterMap_cons_some (hg b a hhead), ih htail]

theorem activePhase_eq_ok {catalog : List (Text × CatalogPhase)} {id : Value} {entry : ActivePhase}
    (h : activePhase catalog id = .ok entry) :
    (mapGet catalog id.toText).map (fun phase => (⟨id, phase⟩ : ActivePhase)) = some entry := by
  unfold activePhase at h
  split at h
  · next phase hphase =>
      obtain rfl := Except.ok.inj h
      rw [hphase, Option.map_some]
  · cases h

theorem position?_lt {active before after : List ActivePhase} {entry : ActivePhase} {phaseId : Text}
    {k : Nat} (h : active = before ++ entry :: after) (hposition : position? active phaseId = some k)
    (hlt : ¬ before.length ≤ k) : ∃ producer ∈ before, producer.id = .str phaseId := by
  obtain ⟨hk, hid, -⟩ := List.findIdx?_eq_some_iff_getElem.mp hposition
  have hbefore : k < before.length := by omega
  refine ⟨before[k], List.getElem_mem hbefore, ?_⟩
  have hget : active[k] = before[k] := by
    simp only [h]
    rw [List.getElem_append_left hbefore]
  simpa [hget] using hid

/-- A profile that the validation accepts. -/
theorem validateProfile_eq_ok {authorities : List (Text × List Text)} {policies : List Text}
    {catalog : List (Text × CatalogPhase)} {id : Text} {value : Value} {profile : Profile}
    (hcatalog : ∀ entry ∈ catalog, entry.2.Normal)
    (h : validateProfile authorities policies catalog id value = .ok profile) :
    Validated authorities (profile.active catalog) ∧ ValidatedOverrides authorities profile := by
  simp only [validateProfile, bind_eq_ok_iff] at h
  obtain ⟨_, -, _, -, phases, -, active, hactive, _, hreferences, templates, -, overrides, hoverrides,
    _, -, packs, -, _, -, _, -, h⟩ := h
  obtain rfl := Except.ok.inj h
  have hsame : Profile.active ⟨phases, templates, overrides, packs⟩ catalog = active :=
    filterMap_of_sequence hactive fun id entry => activePhase_eq_ok
  rw [hsame]
  have hnormal : ∀ entry ∈ active, entry.phase.Normal := fun entry hmem => by
    obtain ⟨phaseId, -, hphase⟩ := (mem_of_sequence hactive).mp hmem
    obtain ⟨phase, hfound, rfl⟩ := Option.map_eq_some_iff.mp (activePhase_eq_ok hphase)
    exact hcatalog _ (mem_of_mapGet hfound)
  have hchecked : ∀ before entry after, active = before ++ entry :: after →
      phaseReferences authorities policies id active before.length entry = .ok () :=
    fun before entry after hsplit => by
      have hlt : before.length < active.length := by rw [hsplit]; simp
      have heq := congrArg (fun l : List (Except Failure Unit) => l[before.length]?)
        (sequence_eq_ok hreferences)
      simp only [List.getElem?_mapIdx, List.getElem?_map] at heq
      rw [List.getElem?_eq_getElem hlt, Option.map_some] at heq
      have hget : active[before.length] = entry := by simp [hsplit]
      obtain ⟨u, -, hu⟩ := Option.map_eq_some_iff.mp heq.symm
      rw [← hget]
      exact hu.symm
  constructor
  · refine ⟨fun entry hmem => (hnormal entry hmem).kinds, fun entry hmem => (hnormal entry hmem).references,
      fun before entry after hsplit output houtput reference hreference => ?_,
      fun entry hmem policy hpolicy => ⟨(hnormal entry hmem).approvals policy hpolicy, ?_⟩⟩
    · have hphase := hchecked before entry after hsplit
      simp only [phaseReferences, bind_eq_ok_iff] at hphase
      obtain ⟨_, -, inputs, hinputs, -⟩ := hphase
      obtain ⟨u, hinput⟩ := ok_of_mem_sequence hinputs _
        (List.mem_flatMap.mpr ⟨output, houtput, List.mem_map.mpr ⟨reference, hreference, rfl⟩⟩)
      unfold consumedOutput at hinput
      split at hinput
      · cases hinput
      · next k hposition =>
          obtain ⟨_, hlt, -⟩ := bind_eq_ok_iff.mp hinput
          exact position?_lt hsplit hposition (failIf_eq_ok_iff.mp hlt)
    · obtain ⟨before, after, hsplit⟩ := List.append_of_mem hmem
      have hphase := hchecked before entry after hsplit
      simp only [phaseReferences, bind_eq_ok_iff] at hphase
      obtain ⟨known, hknown, -⟩ := hphase
      obtain ⟨u, hu⟩ := ok_of_mem_sequence hknown _ (List.mem_map.mpr ⟨policy, hpolicy, rfl⟩)
      exact knownAuthorities_eq_ok hu
  · have hoverride : ∀ entry ∈ overrides, ∃ v, phaseOverride authorities id active entry.1 v
        = .ok entry.2 := of_entries hoverrides
    refine ⟨fun entry hmem policy hpolicy => ?_, fun entry hmem override houtput policy hpolicy => ?_⟩
    · obtain ⟨v, hv⟩ := hoverride entry hmem
      simp only [phaseOverride, bind_eq_ok_iff] at hv
      obtain ⟨_, -, _, -, bundle, hbundle, outputs, -, hv⟩ := hv
      rw [← Except.ok.inj hv] at hpolicy
      subst hpolicy
      exact overriddenApproval_eq_ok hbundle
    · obtain ⟨v, hv⟩ := hoverride entry hmem
      simp only [phaseOverride, bind_eq_ok_iff] at hv
      obtain ⟨_, -, _, -, bundle, -, outputs, houtputs, hv⟩ := hv
      rw [← Except.ok.inj hv] at houtput
      obtain ⟨w, hw⟩ := of_entries houtputs override houtput
      simp only [outputOverride, bind_eq_ok_iff] at hw
      obtain ⟨members, -, _, -, _, -, approval, happroval, hw⟩ := hw
      rw [← Except.ok.inj hw] at hpolicy
      subst hpolicy
      exact overriddenApproval_eq_ok happroval

/-- A portfolio that the validation accepts. -/
theorem validatePortfolio_eq_ok {tables : UnicodeTables} {sections : Value → Except Failure Unit}
    {value : Value} {portfolio : Portfolio}
    (h : validatePortfolio tables sections value = .ok portfolio) :
    ∀ entry ∈ portfolio.profiles,
      Validated portfolio.approvalAuthorities (entry.2.active portfolio.phases)
        ∧ ValidatedOverrides portfolio.approvalAuthorities entry.2 := by
  simp only [validatePortfolio, bind_eq_ok_iff] at h
  obtain ⟨_, -, _, -, _, -, policies, -, authorities, -, phases, hphases, profiles, hprofiles, h⟩ := h
  obtain rfl := Except.ok.inj h
  have hcatalog : ∀ entry ∈ phases, entry.2.Normal := fun entry hmem => by
    obtain ⟨v, hv⟩ := of_entries hphases entry hmem
    obtain ⟨_, -, hv⟩ := bind_eq_ok_iff.mp hv
    exact normalizePhase_eq_ok hv
  intro entry hmem
  obtain ⟨v, hv⟩ := of_entries hprofiles entry hmem
  exact validateProfile_eq_ok hcatalog hv

/-! ## What the resolution returns -/

def Profile.resolved (profile : Profile) (entry : ActivePhase) : ResolvedPhase :=
  { id := entry.id
    outputs := entry.phase.outputs.map
      (resolveOutput profile.templateOverrides entry.id.toText (profile.phaseOverride entry))
    checklist := entry.phase.checklist
    bundleApproval := (profile.phaseOverride entry).bundleApproval.getD entry.phase.bundleApproval }

theorem resolveProfilePhase_eq_ok {portfolio : Portfolio} {profile : Profile} {id : Value}
    {phase : ResolvedPhase} (h : resolveProfilePhase portfolio profile id = .ok phase) :
    (mapGet portfolio.phases id.toText).map (fun found => profile.resolved ⟨id, found⟩)
      = some phase := by
  simp only [resolveProfilePhase, bind_eq_ok_iff] at h
  obtain ⟨entry, hentry, override, hoverride, h⟩ := h
  obtain ⟨found, hfound, rfl⟩ := Option.map_eq_some_iff.mp (activePhase_eq_ok hentry)
  have hsame : profile.phaseOverride ⟨id, found⟩ = override := by
    unfold phaseOverrideOf at hoverride
    unfold Profile.phaseOverride
    split at hoverride
    · next hget => rw [hget, Option.getD_some, Except.ok.inj hoverride]
    · next hget =>
        split at hoverride
        · cases hoverride
        · rw [hget, Option.getD_none, Except.ok.inj hoverride]
  rw [hfound, Option.map_some, Profile.resolved, hsame, ← Except.ok.inj h]

theorem resolveInitiativeProfile_eq_ok {identity : Except Failure Unit} {portfolio : Portfolio}
    {profileId : Text} {phases : List ResolvedPhase} {profile : Profile}
    (hprofile : mapGet portfolio.profiles profileId = some profile)
    (h : resolveInitiativeProfile identity portfolio profileId = .ok phases) :
    phases = (profile.active portfolio.phases).map profile.resolved := by
  simp only [resolveInitiativeProfile, hprofile, bind_eq_ok_iff] at h
  obtain ⟨phases', hphases, _, -, _, -, h⟩ := h
  obtain rfl := Except.ok.inj h
  rw [← filterMap_of_sequence hphases fun id phase => resolveProfilePhase_eq_ok, Profile.active,
    List.map_filterMap]
  refine List.filterMap_congr fun id _ => ?_
  rw [Option.map_map]
  rfl

section Resolved

variable {profile : Profile} {authorities : List (Text × List Text)}
  {catalog : List (Text × CatalogPhase)}

/-- A phase of a profile is determined by how the profile lists it. -/
theorem eq_of_mem_active {entry entry' : ActivePhase} (h : entry ∈ profile.active catalog)
    (h' : entry' ∈ profile.active catalog) (hid : entry.id = entry'.id) : entry = entry' := by
  obtain ⟨id, -, hentry⟩ := List.mem_filterMap.mp h
  obtain ⟨id', -, hentry'⟩ := List.mem_filterMap.mp h'
  obtain ⟨phase, hphase, rfl⟩ := Option.map_eq_some_iff.mp hentry
  obtain ⟨phase', hphase', rfl⟩ := Option.map_eq_some_iff.mp hentry'
  obtain rfl : id = id' := hid
  rw [Option.some.inj (hphase.symm.trans hphase')]

theorem namesOutput_iff {phases : List ActivePhase} {reference : Text} :
    NamesOutput (phases.map profile.resolved) reference
      ↔ isReference reference = true ∧ profile.Makes phases reference := by
  unfold NamesOutput Profile.Makes
  constructor
  · rintro ⟨hreference, _, hproducer, hid, _, houtput, hname⟩
    obtain ⟨producer, hmem, rfl⟩ := List.mem_map.mp hproducer
    obtain ⟨output, hmem', rfl⟩ := List.mem_map.mp houtput
    exact ⟨hreference, producer, hmem, hid, output, hmem', hname⟩
  · rintro ⟨hreference, producer, hmem, hid, output, hmem', hname⟩
    exact ⟨hreference, _, List.mem_map_of_mem hmem, hid, _, List.mem_map_of_mem hmem', hname⟩

/-- Whatever is overridden, policies are established. -/
theorem established_of_resolved (hvalid : Validated authorities (profile.active catalog))
    (hoverrides : ValidatedOverrides authorities profile) {entry : ActivePhase}
    (hmem : entry ∈ profile.active catalog) :
    ∀ policy ∈ (profile.resolved entry).approvals, Established authorities policy := by
  have hbase : ∀ policy ∈ entry.phase.approvals, Established authorities policy :=
    hvalid.approvals entry hmem
  have hfound : ∀ override, mapGet profile.phaseOverrides entry.id.toText = some override →
      (entry.id.toText, override) ∈ profile.phaseOverrides := fun override => mem_of_mapGet
  intro policy hpolicy
  simp only [ResolvedPhase.approvals, Profile.resolved, List.cons_append, List.mem_cons,
    List.mem_append, List.map_map, List.mem_map, Function.comp_apply] at hpolicy
  rcases hpolicy with rfl | ⟨output, houtput, rfl⟩ | ⟨check, hcheck, rfl⟩
  · unfold Profile.phaseOverride
    cases hget : mapGet profile.phaseOverrides entry.id.toText with
    | none => exact hbase _ (by simp [CatalogPhase.approvals])
    | some override =>
        rw [Option.getD_some]
        cases hbundle : override.bundleApproval with
        | none => exact hbase _ (by simp [CatalogPhase.approvals])
        | some policy => exact hoverrides.bundle _ (hfound _ hget) policy hbundle
  · have hown : Established authorities output.approval := hbase _ (by
      simp only [CatalogPhase.approvals, List.cons_append, List.mem_cons, List.mem_append,
        List.mem_map]
      exact .inr (.inl ⟨output, houtput, rfl⟩))
    show Established authorities ((profile.override entry output).approval.getD output.approval)
    unfold Profile.override PhaseOverride.output Profile.phaseOverride
    cases hget : mapGet profile.phaseOverrides entry.id.toText with
    | none => exact hown
    | some override =>
        rw [Option.getD_some]
        cases houtputs : mapGet override.outputs output.id with
        | none => exact hown
        | some outputOverride =>
            rw [Option.getD_some]
            cases happroval : outputOverride.approval with
            | none => exact hown
            | some policy =>
                exact hoverrides.output _ (hfound _ hget) _ (mem_of_mapGet houtputs) policy happroval
  · refine hbase _ ?_
    simp only [CatalogPhase.approvals, List.cons_append, List.mem_cons, List.mem_append,
      List.mem_map]
    exact .inr (.inr ⟨check, hcheck, rfl⟩)

theorem OutputOverride.over_of_carried {override : OutputOverride} {name : String} {value v : Value}
    (h : override.carried name = some v) : override.over name value = v := by
  rw [OutputOverride.over, show mapGet override.members (js name) = some v from h, Option.getD_some]

theorem OutputOverride.over_of_not_carried {override : OutputOverride} {name : String} {value : Value}
    (h : override.carried name = none) : override.over name value = value := by
  rw [OutputOverride.over, show mapGet override.members (js name) = none from h, Option.getD_none]

/-- The rules of resolved phases, in terms of the overrides. -/
theorem keepsRules_resolved_iff (hvalid : Validated authorities (profile.active catalog))
    (hoverrides : ValidatedOverrides authorities profile) :
    KeepsRules authorities ((profile.active catalog).map profile.resolved)
      ↔ OverridesFit catalog profile := by
  have hmapped : ∀ entry ∈ profile.active catalog,
      profile.resolved entry ∈ (profile.active catalog).map profile.resolved :=
    fun entry hmem => List.mem_map_of_mem hmem
  have hids : ∀ entry, (profile.resolved entry).outputs.map ResolvedOutput.id
      = entry.phase.outputs.map (profile.outputId entry) := fun entry => List.map_map ..
  have hpaths : ∀ entry, (profile.resolved entry).outputs.map ResolvedOutput.path
      = entry.phase.outputs.map (profile.outputPath entry) := fun entry => List.map_map ..
  have hconsumes : ∀ {before after : List ActivePhase} {entry : ActivePhase},
      profile.active catalog = before ++ entry :: after →
      (profile.active catalog).map profile.resolved
        = before.map profile.resolved ++ profile.resolved entry :: after.map profile.resolved :=
    fun hsplit => by rw [hsplit, List.map_append, List.map_cons]
  constructor
  · intro h
    refine ⟨fun entry hmem => hids entry ▸ h.ids _ (hmapped entry hmem),
      fun entry hmem => hpaths entry ▸ h.paths _ (hmapped entry hmem),
      fun entry hmem output houtput kind hkind => ?_,
      fun before entry after hsplit output houtput value hvalue => ?_,
      fun entry hmem output houtput hnone reference hreference => ?_⟩
    · obtain ⟨text, htext, heq⟩ := h.kinds _ (hmapped entry hmem) _ (List.mem_map_of_mem houtput)
      exact ⟨text, htext, (OutputOverride.over_of_carried hkind).symm.trans heq⟩
    · obtain ⟨references, heq, hnames⟩ := h.consumes _ _ _ (hconsumes hsplit) _
        (List.mem_map_of_mem houtput)
      exact ⟨references, (OutputOverride.over_of_carried hvalue).symm.trans heq,
        fun reference hmem => namesOutput_iff.mp (hnames reference hmem)⟩
    · obtain ⟨before, after, hsplit⟩ := List.append_of_mem hmem
      obtain ⟨references, heq, hnames⟩ := h.consumes _ _ _ (hconsumes hsplit) _
        (List.mem_map_of_mem houtput)
      have hsame : Value.arr (output.consumes.map Value.str) = .arr (references.map Value.str) :=
        (OutputOverride.over_of_not_carried hnone).symm.trans heq
      have hinjective : Function.Injective Value.str := fun _ _ => Value.str.inj
      obtain rfl := hinjective.list_map (Value.arr.inj hsame)
      obtain ⟨-, producer, hproducer, hmakes⟩ := namesOutput_iff.mp (hnames reference hreference)
      exact ⟨producer, by rw [hsplit]; exact List.mem_append_left _ hproducer, hmakes⟩
  · intro h
    refine ⟨fun before' phase' after' hsplit' resolved hresolved => ?_, fun phase hphase => ?_,
      fun phase hphase => ?_, fun phase hphase resolved hresolved => ?_, fun phase hphase => ?_⟩
    · obtain ⟨before, rest, hsplit, rfl, hrest⟩ := List.map_eq_append_iff.mp hsplit'
      obtain ⟨entry, after, rfl, rfl, -⟩ := List.map_eq_cons_iff.mp hrest
      obtain ⟨output, houtput, rfl⟩ := List.mem_map.mp hresolved
      have hmem : entry ∈ profile.active catalog := by rw [hsplit]; simp
      cases hcarried : (profile.override entry output).carried "consumes" with
      | some value =>
          obtain ⟨references, rfl, hnames⟩ := h.consumes before entry after hsplit output houtput
            value hcarried
          exact ⟨references, OutputOverride.over_of_carried hcarried,
            fun reference hmem' => namesOutput_iff.mpr (hnames reference hmem')⟩
      | none =>
          refine ⟨output.consumes, OutputOverride.over_of_not_carried hcarried,
            fun reference hreference => namesOutput_iff.mpr
              ⟨hvalid.references entry hmem output houtput reference hreference, ?_⟩⟩
          obtain ⟨producer, hproducer, hid⟩ := hvalid.consumes before entry after hsplit output
            houtput reference hreference
          obtain ⟨producer', hproducer', hid', hmakes⟩ := h.consumed entry hmem output houtput
            hcarried reference hreference
          have hearlier : producer ∈ profile.active catalog := by
            rw [hsplit]
            exact List.mem_append_left _ hproducer
          obtain rfl := eq_of_mem_active hearlier hproducer' (hid.trans hid'.symm)
          exact ⟨producer, hproducer, hid, hmakes⟩
    · obtain ⟨entry, hmem, rfl⟩ := List.mem_map.mp hphase
      exact (hids entry).symm ▸ h.ids entry hmem
    · obtain ⟨entry, hmem, rfl⟩ := List.mem_map.mp hphase
      exact (hpaths entry).symm ▸ h.paths entry hmem
    · obtain ⟨entry, hmem, rfl⟩ := List.mem_map.mp hphase
      obtain ⟨output, houtput, rfl⟩ := List.mem_map.mp hresolved
      cases hcarried : (profile.override entry output).carried "kind" with
      | some kind =>
          obtain ⟨text, htext, rfl⟩ := h.kinds entry hmem output houtput kind hcarried
          exact ⟨text, htext, OutputOverride.over_of_carried hcarried⟩
      | none => exact ⟨output.kind, hvalid.kinds entry hmem output houtput,
          OutputOverride.over_of_not_carried hcarried⟩
    · obtain ⟨entry, hmem, rfl⟩ := List.mem_map.mp hphase
      exact established_of_resolved hvalid hoverrides hmem

end Resolved

/-- **What overrides keep.**  The resolved phases of a profile keep to the rules of
the validation exactly if the identifiers, paths, kinds and inputs that its
overrides carry do. -/
theorem keepsRules_iff {tables : UnicodeTables} {sections : Value → Except Failure Unit}
    {value : Value} {portfolio : Portfolio}
    (hvalid : validatePortfolio tables sections value = .ok portfolio) {profileId : Text}
    {profile : Profile} (hprofile : mapGet portfolio.profiles profileId = some profile)
    {identity : Except Failure Unit} {phases : List ResolvedPhase}
    (hresolved : resolveInitiativeProfile identity portfolio profileId = .ok phases) :
    KeepsRules portfolio.approvalAuthorities phases ↔ OverridesFit portfolio.phases profile := by
  obtain ⟨hestablished, hoverrides⟩ := validatePortfolio_eq_ok hvalid _ (mem_of_mapGet hprofile)
  rw [resolveInitiativeProfile_eq_ok hprofile hresolved]
  exact keepsRules_resolved_iff hestablished hoverrides

section Example

def catalogOutput (id : String) (consumes : List String) : Value :=
  .obj [(js "id", .str (js id)), (js "template", .str (js "blank.md")),
    (js "consumes", .arr (consumes.map fun reference => .str (js reference))),
    (js "approval", .obj [(js "authorities", .arr [.str (js "leads")])])]

def catalogEntry (outputs : List Value) : Value :=
  .obj [(js "outputs", .arr outputs),
    (js "bundleApproval", .obj [(js "authorities", .arr [.str (js "leads")])])]

/-- A profile in which the plan of the delivery consumes itself, by its override. -/
def selfConsuming : Value :=
  .obj [(js "version", .num (Number.ofNat 1)),
    (js "approvalAuthorities", .obj [(js "leads", .obj [(js "members",
      .arr [.obj [(js "email", .str (js "ada@example.com"))]])])]),
    (js "initiativePhases", .obj [(js "discovery", catalogEntry [catalogOutput "brief" []]),
      (js "delivery", catalogEntry [catalogOutput "plan" ["discovery/brief"]])]),
    (js "initiativeProfiles", .obj [(js "lean", .obj [
      (js "phases", .arr [.str (js "discovery"), .str (js "delivery")]),
      (js "phaseOverrides", .obj [(js "delivery", .obj [(js "outputs", .obj [(js "plan",
        .obj [(js "consumes", .arr [.str (js "delivery/plan")])])])])])])])]

/-- The validation accepts the portfolio, and its profile is resolved. -/
theorem exists_selfConsuming : ∃ portfolio profile phases,
    validatePortfolio asciiTables (fun _ => .ok ()) selfConsuming = .ok portfolio
      ∧ mapGet portfolio.profiles (js "lean") = some profile
      ∧ resolveInitiativeProfile (.ok ()) portfolio (js "lean") = .ok phases
      ∧ (phases.map fun phase => (phase.id, phase.outputs.map ResolvedOutput.consumes))
        = [(.str (js "discovery"), [.arr []]),
          (.str (js "delivery"), [.arr [.str (js "delivery/plan")]])] := by
  have hcheck : (validatePortfolio asciiTables (fun _ => .ok ()) selfConsuming).toOption.any
      (fun portfolio => (mapGet portfolio.profiles (js "lean")).isSome
        && (resolveInitiativeProfile (.ok ()) portfolio (js "lean")).toOption.any fun phases =>
          (phases.map fun phase => (phase.id, phase.outputs.map ResolvedOutput.consumes))
            = [(.str (js "discovery"), [.arr []]),
              (.str (js "delivery"), [.arr [.str (js "delivery/plan")]])]) = true := by
    decide +kernel
  obtain ⟨portfolio, hportfolio, hcheck⟩ := exists_ok_of_any hcheck
  rw [Bool.and_eq_true] at hcheck
  obtain ⟨profile, hprofile⟩ := Option.isSome_iff_exists.mp hcheck.1
  obtain ⟨phases, hphases, hconsumes⟩ := exists_ok_of_any hcheck.2
  exact ⟨portfolio, profile, phases, hportfolio, hprofile, hphases, by simpa using hconsumes⟩

theorem keepsRules_iff_selfConsuming : ∃ portfolio profile phases,
    resolveInitiativeProfile (.ok ()) portfolio (js "lean") = .ok phases
      ∧ (KeepsRules portfolio.approvalAuthorities phases ↔ OverridesFit portfolio.phases profile) := by
  obtain ⟨portfolio, profile, phases, hvalid, hprofile, hresolved, -⟩ := exists_selfConsuming
  exact ⟨portfolio, profile, phases, hresolved, keepsRules_iff hvalid hprofile hresolved⟩

/-- The validation accepts a portfolio whose resolved phases break its rules. -/
theorem breaksRules_selfConsuming : ∃ portfolio phases,
    validatePortfolio asciiTables (fun _ => .ok ()) selfConsuming = .ok portfolio
      ∧ resolveInitiativeProfile (.ok ()) portfolio (js "lean") = .ok phases
      ∧ ¬ KeepsRules portfolio.approvalAuthorities phases := by
  obtain ⟨portfolio, profile, phases, hvalid, -, hresolved, hconsumes⟩ := exists_selfConsuming
  refine ⟨portfolio, phases, hvalid, hresolved, fun h => ?_⟩
  obtain ⟨discovery, rest, rfl, hdiscovery, hrest⟩ := List.map_eq_cons_iff.mp hconsumes
  obtain ⟨delivery, rest, rfl, hdelivery, -⟩ := List.map_eq_cons_iff.mp hrest
  obtain ⟨-, houtputs⟩ := Prod.mk.inj hdelivery
  obtain ⟨plan, outputs, houtputs, hplan, -⟩ := List.map_eq_cons_iff.mp houtputs
  obtain ⟨references, heq, hnames⟩ := h.consumes [discovery] delivery rest rfl plan
    (by rw [houtputs]; exact List.mem_cons_self)
  rw [hplan] at heq
  obtain ⟨reference, _, rfl, hreference, -⟩ := List.map_eq_cons_iff.mp (Value.arr.inj heq).symm
  obtain rfl := Value.str.inj hreference
  obtain ⟨-, producer, hproducer, hid, -⟩ := hnames _ List.mem_cons_self
  rw [List.mem_singleton.mp hproducer, (Prod.mk.inj hdiscovery).1] at hid
  exact absurd (Value.str.inj hid) (by decide)

end Example

end Initiatives

end SingularityFlow
