/-
# What accepted decisions satisfy

Each decision that `normalizeDecisions` accepts is `Sound`, and the decisions
of a work type differ in their ids and in the phases they follow.  These are
the only facts about configuration that the results about Stories use.
-/
import SingularityFlow.Story.Decisions

namespace SingularityFlow

open Ecma Approval

namespace Story

/-! ## The dependency rule -/

/-- A route strands no phase that it still reaches: none of them requires a
phase that the route skips. -/
def KeepsReaders (phases : List PhaseConfig) (reach : Reach) : Prop :=
  ∀ target, reach.target = some target →
    ∀ id ∈ (phases.map (·.id)).drop ((phases.map (·.id)).idxOf target),
      ∀ phase, phaseById phases id = some phase → ∀ source ∈ phase.required, source ∉ reach.skipped

theorem throwFirst_eq_ok_iff {messages : List Text} {u : Unit} :
    throwFirst messages = .ok u ↔ messages = [] := by
  cases messages <;> simp [throwFirst]

theorem strandedReaders_eq_nil {location routeId : Text} {skipped : List Text}
    {phase : PhaseConfig} (h : strandedReaders location routeId skipped phase = []) :
    ∀ source ∈ phase.required, source ∉ skipped := by
  obtain ⟨hinputs, htests⟩ := List.append_eq_nil_iff.mp h
  rw [List.map_eq_nil_iff, List.filter_eq_nil_iff] at hinputs htests
  intro source hsource hskipped
  rcases List.mem_append.mp hsource with hsource | hsource
  · obtain ⟨input, hinput, rfl⟩ := List.mem_map.mp hsource
    obtain ⟨hmem, hoptional⟩ := List.mem_filter.mp hinput
    exact hinputs input hmem (by simpa using ⟨hskipped, by simpa using hoptional⟩)
  · exact htests source hsource (by simpa using hskipped)

theorem dependencyFailures_eq_nil {location : Text} {route : Route} {reach : Reach}
    {phases : List PhaseConfig} {plannedClaims : Option PlannedClaims}
    (h : dependencyFailures location route reach phases plannedClaims = []) :
    KeepsReaders phases reach := by
  intro target htarget id hid phase hphase source hsource
  unfold dependencyFailures at h
  split at h
  · next hskipped => rw [hskipped]; exact List.not_mem_nil
  · simp only [htarget] at h
    have hreaders := List.flatMap_eq_nil_iff.mp (List.append_eq_nil_iff.mp h).1
    exact strandedReaders_eq_nil
      (hreaders phase (List.mem_filterMap.mpr ⟨id, hid, hphase⟩)) source hsource

/-! ## Sound decisions -/

/-- What is checked of a decision against the phases of its work type. -/
structure Sound (phases : List PhaseConfig) (decision : Decision) : Prop where
  kebab : kebabCase decision.id = true
  after_mem : decision.after ∈ phases.map (·.id)
  targets : ∀ route ∈ decision.routes, route.leadsTo = decisionNext ∨
    route.leadsTo = decisionEnd ∨ route.leadsTo ∈ phases.map (·.id)
  fallback : decision.kind ≠ .ask → ∃ route ∈ decision.routes, route.when = none
  inputs : decision.kind ≠ .ask → decision.inputs ≠ []
  rounds : decision.kind ≠ .ask → ∀ route ∈ decision.routes,
    (routeReach (phases.map (·.id)) decision.after route.leadsTo).kind = .backward →
      decision.maxRounds.isSome = true
  signed : decision.kind ≠ .ask → ∀ route ∈ decision.routes,
    (routeReach (phases.map (·.id)) decision.after route.leadsTo).kind = .backward →
      (phaseById phases decision.after).bind (·.approvalMode) = some .required
  keeps : ∀ route ∈ decision.routes,
    KeepsReaders phases (routeReach (phases.map (·.id)) decision.after route.leadsTo)

theorem phaseById_some {phases : List PhaseConfig} {id : Text} {phase : PhaseConfig}
    (h : phaseById phases id = some phase) : phase ∈ phases ∧ phase.id = id :=
  ⟨List.mem_reverse.mp (List.mem_of_find?_eq_some h), by simpa using List.find?_some h⟩

variable {tables : UnicodeTables} {context : DecisionContext}

theorem normalizeRouteList_spec {location : Text} {kind : DecisionKind} {inputs : List Input}
    {order : List Text} : ∀ {drafts : List RouteDraft} {ids : List Text} {index : Nat}
    {routes : List Route},
    normalizeRouteList tables location kind inputs order ids index drafts = .ok routes →
    (∀ route ∈ routes, route.leadsTo = decisionNext ∨ route.leadsTo = decisionEnd ∨
      route.leadsTo ∈ order) ∧
    (drafts ≠ [] → ∃ route ∈ routes, route.when = none)
  | [], _, _, routes, h => by
      obtain rfl : [] = routes := Except.ok.inj h
      simp
  | draft :: rest, ids, index, routes, h => by
      simp only [normalizeRouteList, bind_eq_ok_iff, failIf_eq_ok_iff, exists_const,
        Except.ok.injEq] at h
      obtain ⟨-, -, display, -, htarget, when, hwhen, others, hothers, rfl⟩ := h
      obtain ⟨htargets, hfallback⟩ := normalizeRouteList_spec hothers
      refine ⟨List.forall_mem_cons.mpr ⟨not_not.mp htarget, htargets⟩, fun _ => ?_⟩
      by_cases hrest : rest = []
      · refine ⟨_, List.mem_cons_self .., ?_⟩
        subst hrest
        unfold routeWhen at hwhen
        split at hwhen
        all_goals simp_all [bind_eq_ok_iff]
      · obtain ⟨route, hmem, hnone⟩ := hfallback hrest
        exact ⟨route, List.mem_cons_of_mem _ hmem, hnone⟩

theorem decisionRoutes_spec {entry : DecisionDraft} {kind : DecisionKind} {location : Text}
    {inputs : List Input} {routes : List Route} {goal : Option When}
    (h : decisionRoutes tables context entry kind location inputs = .ok (routes, goal)) :
    (∀ route ∈ routes, route.leadsTo = decisionNext ∨ route.leadsTo = decisionEnd ∨
      route.leadsTo ∈ context.order) ∧ ∃ route ∈ routes, route.when = none := by
  unfold decisionRoutes at h
  dsimp only at h
  split at h
  · simp only [bind_eq_ok_iff, failIf_eq_ok_iff, exists_const] at h
    obtain ⟨-, rule, -, h⟩ := h
    split at h
    · cases h
    · next back hback =>
      obtain ⟨rfl, -⟩ := Prod.mk.inj (Except.ok.inj h)
      have hmem : back ∈ context.order := by
        obtain ⟨-, hback⟩ := Option.filter_eq_some_iff.mp hback
        exact (of_decide_eq_true hback).1
      refine ⟨by simp [hmem], _, List.mem_cons_of_mem _ (List.mem_cons_self ..), rfl⟩
  · simp only [bind_eq_ok_iff, failIf_eq_ok_iff, exists_const, normalizeRoutes,
      Except.ok.injEq, Prod.mk.injEq] at h
    obtain ⟨-, _, ⟨hlength, hroutes⟩, rfl, -⟩ := h
    obtain ⟨htargets, hfallback⟩ := normalizeRouteList_spec hroutes
    refine ⟨htargets, hfallback fun hnil => ?_⟩
    rw [hnil] at hlength
    simp at hlength

theorem decisionMaxRounds_isSome {entry : DecisionDraft} {kind : DecisionKind} {location : Text}
    {maxRounds : Option Nat} (hkind : kind ≠ .ask)
    (h : decisionMaxRounds entry kind location true = .ok maxRounds) :
    maxRounds.isSome = true := by
  unfold decisionMaxRounds at h
  rw [if_neg hkind, if_pos rfl] at h
  dsimp only at h
  split at h
  · cases h
  · rw [← Except.ok.inj h]; rfl

theorem unsignedRoutes_eq_nil {after : PhaseConfig} {location : Text} {routes : List Route}
    (h : unsignedRoutes context after location routes = []) :
    ∀ route ∈ routes, (routeReach context.order after.id route.leadsTo).kind = .backward →
      after.approvalMode = some .required := by
  intro route hroute hback
  unfold unsignedRoutes at h
  split at h
  · next hsigned => exact hsigned
  · have := List.flatMap_eq_nil_iff.mp h route hroute
    simp [hback] at this

/-- **One accepted decision.** -/
theorem normalizeDecision_spec {ids afters : List Text} {index : Nat} {entry : DecisionDraft}
    {decision : Decision}
    (h : normalizeDecision tables context ids afters index entry = .ok decision) :
    Sound context.phases decision ∧ decision.id = entry.id ∧ decision.after = entry.after ∧
      entry.id ∉ ids ∧ entry.after ∉ afters := by
  simp only [normalizeDecision, bind_eq_ok_iff, failIf_eq_ok_iff, exists_const,
    Bool.not_eq_false] at h
  obtain ⟨hkebab, hid, h⟩ := h
  split at h
  · cases h
  next after hafter =>
  obtain ⟨hmem, hafterId⟩ := phaseById_some hafter
  simp only [bind_eq_ok_iff, failIf_eq_ok_iff, exists_const] at h
  obtain ⟨hfresh, -, h⟩ := h
  split at h
  · cases h
  next kind _ =>
  simp only [bind_eq_ok_iff, failIf_eq_ok_iff, exists_const, throwFirst_eq_ok_iff,
    Except.ok.injEq, Prod.exists] at h
  obtain ⟨-, display, -, -, inputs, -, hinputs, routes, goal, hroutes, maxRounds, hrounds, -,
    hsigned, byGroups, -, -, hkeeps, rfl⟩ := h
  obtain ⟨htargets, hfallback⟩ := decisionRoutes_spec hroutes
  refine ⟨⟨hkebab, ?_, htargets, fun _ => hfallback, fun hask hnil => hinputs ⟨hask, hnil⟩, ?_, ?_, ?_⟩,
    rfl, hafterId, hid, hfresh⟩
  · exact List.mem_map_of_mem hmem
  · intro hask route hroute hback
    have hgoesBack : ((routes.map fun route =>
        routeReach context.order after.id route.leadsTo).any (·.kind = .backward)) = true := by
      rw [List.any_map, List.any_eq_true]
      exact ⟨route, hroute, decide_eq_true hback⟩
    rw [hgoesBack] at hrounds
    exact decisionMaxRounds_isSome hask hrounds
  · intro hask route hroute hback
    rw [if_neg hask] at hsigned
    rw [hafterId, hafter]
    exact unsignedRoutes_eq_nil hsigned route hroute hback
  · intro route hroute
    exact dependencyFailures_eq_nil (List.flatMap_eq_nil_iff.mp hkeeps route hroute)

theorem normalizeDecisionList_spec : ∀ {entries : List DecisionDraft} {ids afters : List Text}
    {index : Nat} {decisions : List Decision},
    normalizeDecisionList tables context ids afters index entries = .ok decisions →
    (∀ decision ∈ decisions, Sound context.phases decision ∧ decision.id ∉ ids ∧
      decision.after ∉ afters) ∧
    (decisions.map (·.id)).Nodup ∧ (decisions.map (·.after)).Nodup
  | [], _, _, _, decisions, h => by
      obtain rfl : [] = decisions := Except.ok.inj h
      simp
  | entry :: rest, ids, afters, index, decisions, h => by
      simp only [normalizeDecisionList, bind_eq_ok_iff, Except.ok.injEq] at h
      obtain ⟨decision, hdecision, others, hothers, rfl⟩ := h
      obtain ⟨hsound, hid, hafter, hids, hafters⟩ := normalizeDecision_spec hdecision
      obtain ⟨hall, hnodupIds, hnodupAfters⟩ := normalizeDecisionList_spec hothers
      refine ⟨List.forall_mem_cons.mpr ⟨⟨hsound, hid ▸ hids, hafter ▸ hafters⟩, fun d hd => ?_⟩,
        List.nodup_cons.mpr ⟨fun hmem => ?_, hnodupIds⟩,
        List.nodup_cons.mpr ⟨fun hmem => ?_, hnodupAfters⟩⟩
      · obtain ⟨h₁, h₂, h₃⟩ := hall d hd
        exact ⟨h₁, fun h => h₂ (List.mem_cons_of_mem _ h), fun h => h₃ (List.mem_cons_of_mem _ h)⟩
      · obtain ⟨d, hd, heq⟩ := List.mem_map.mp hmem
        exact (hall d hd).2.1 (List.mem_cons.mpr (.inl (heq.trans hid)))
      · obtain ⟨d, hd, heq⟩ := List.mem_map.mp hmem
        exact (hall d hd).2.2 (List.mem_cons.mpr (.inl (heq.trans hafter)))

/-- **Accepted decisions** are sound, and differ in their ids and in the
phases they follow. -/
theorem normalizeDecisions_spec {value : Option (List DecisionDraft)} {decisions : List Decision}
    (h : normalizeDecisions tables value context = .ok decisions) :
    (∀ decision ∈ decisions, Sound context.phases decision) ∧ (decisions.map (·.id)).Nodup ∧
      (decisions.map (·.after)).Nodup := by
  obtain ⟨hall, hids, hafters⟩ := normalizeDecisionList_spec h
  exact ⟨fun decision hmem => (hall decision hmem).1, hids, hafters⟩

end Story

end SingularityFlow
