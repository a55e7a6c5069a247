/-
# What the obligation compiler reports, and the walks of the work type

The graph of a work type is one that the analyses are exact for: its edges go from
steps to steps or to the end, and every step has one (`graphOf_routed`).  So the
endpoints and the steps that implement without a plan are reported exactly.  A step
that verifies without a review is reported too often in one kind of work type, and
`exactAnalysis_iff` says in which.
-/
import SingularityFlow.Evidence.ObligationWalks

namespace SingularityFlow

open Ecma Passes Walks

namespace Evidence

/-! ## The graph of a work type -/

theorem mem_setEdge {edges : List Edge} {edge other : Edge} (h : other ∈ setEdge edges edge) :
    other ∈ edges ∨ other = edge := by
  rw [setEdge] at h
  split at h
  · obtain ⟨e, he, heq⟩ := List.mem_map.mp h
    split at heq
    · exact Or.inr heq.symm
    · exact Or.inl (heq ▸ he)
  · exact (List.mem_append.mp h).imp_right List.mem_singleton.mp

theorem key_setEdge {edges : List Edge} {edge other : Edge}
    (h : (∃ e ∈ edges, e.key = other.key) ∨ edge.key = other.key) :
    ∃ e ∈ setEdge edges edge, e.key = other.key := by
  rw [setEdge]
  split
  · next hany =>
      obtain ⟨known, hknown, hkey⟩ := List.any_eq_true.mp hany
      have hreplaced : ∀ e ∈ edges, e.key = other.key → ∃ e' ∈ edges.map
          (fun e => if e.key = edge.key then edge else e), e'.key = other.key := by
        intro e he hother
        refine ⟨_, List.mem_map_of_mem he, ?_⟩
        split
        · next hsame => rw [← hsame, hother]
        · exact hother
      rcases h with ⟨e, he, hother⟩ | hother
      · exact hreplaced e he hother
      · exact hreplaced known hknown ((of_decide_eq_true hkey).trans hother)
  · rcases h with ⟨e, he, hother⟩ | hother
    · exact ⟨e, List.mem_append_left _ he, hother⟩
    · exact ⟨edge, List.mem_append_right _ (List.mem_singleton_self edge), hother⟩

theorem mem_uniqueEdges {edges : List Edge} {edge : Edge} (h : edge ∈ uniqueEdges edges) :
    edge ∈ edges := by
  have hfold : ∀ (edges known : List Edge), edge ∈ edges.foldl setEdge known →
      edge ∈ known ∨ edge ∈ edges := by
    intro edges
    induction edges with
    | nil => exact fun _ h => Or.inl h
    | cons e edges ih =>
        intro known h
        rcases ih (setEdge known e) h with hknown | hrest
        · exact (mem_setEdge hknown).imp_right fun heq => List.mem_cons.mpr (Or.inl heq)
        · exact Or.inr (List.mem_cons_of_mem e hrest)
  exact (hfold edges [] h).resolve_left List.not_mem_nil

theorem key_uniqueEdges {edges : List Edge} {edge : Edge} (h : edge ∈ edges) :
    ∃ e ∈ uniqueEdges edges, e.key = edge.key := by
  have hfold : ∀ (edges known : List Edge), (∃ e ∈ known, e.key = edge.key) ∨ edge ∈ edges →
      ∃ e ∈ edges.foldl setEdge known, e.key = edge.key := by
    intro edges
    induction edges with
    | nil => exact fun _ h => h.resolve_right List.not_mem_nil
    | cons e edges ih =>
        intro known h
        rw [List.foldl_cons]
        refine ih (setEdge known e) ?_
        rcases h with hknown | hmem
        · exact Or.inl (key_setEdge (Or.inl hknown))
        · rcases List.mem_cons.mp hmem with rfl | hmem
          · exact Or.inl (key_setEdge (Or.inr rfl))
          · exact Or.inr hmem
  exact hfold edges [] (Or.inr h)

section Edges

variable {workType : WorkType}

theorem onwardEdges_spec {index : Nat} {id : Text} {edge : Edge}
    (h : edge ∈ onwardEdges workType index id) :
    edge.source = id ∧ ∀ target, edge.target = some target → target ∈ workType.order := by
  have hnext : ∀ target, workType.order[index + 1]? = some target → target ∈ workType.order :=
    fun target h => List.mem_of_getElem? h
  rw [onwardEdges] at h
  dsimp only at h
  split at h
  · obtain rfl := List.mem_singleton.mp h
    exact ⟨rfl, hnext⟩
  · next decision hdecision =>
      split at h
      · rcases List.mem_append.mp h with h | h
        · obtain ⟨target, htarget, rfl⟩ := List.mem_map.mp h
          refine ⟨rfl, fun other hother => ?_⟩
          cases hother
          exact (List.mem_filter.mp htarget).1
        · obtain rfl := List.mem_singleton.mp h
          exact ⟨rfl, fun _ hother => by cases hother⟩
      · obtain ⟨route, hroute, rfl⟩ := List.mem_map.mp h
        refine ⟨rfl, fun target htarget => ?_⟩
        have hknown := workType.known decision (List.mem_of_find?_eq_some hdecision) route hroute
        dsimp only at htarget
        split at htarget
        · cases htarget
        · next hend =>
            split at htarget
            · exact hnext target htarget
            · next hnotNext =>
                cases htarget
                exact (hknown.resolve_left hend).resolve_left hnotNext

theorem onwardEdges_ne_nil (workType : WorkType) (index : Nat) (id : Text) : onwardEdges workType index id ≠ [] := by
  rw [onwardEdges]
  dsimp only
  split
  · exact List.cons_ne_nil _ _
  · next decision hdecision =>
      split
      · exact List.append_ne_nil_of_right_ne_nil _ (List.cons_ne_nil _ _)
      · exact fun h => workType.routed decision (List.mem_of_find?_eq_some hdecision)
          (List.map_eq_nil_iff.mp h)

theorem mem_routeEdges {edge : Edge} (h : edge ∈ routeEdges workType) :
    edge.source ∈ workType.order
      ∧ ∀ target, edge.target = some target → target ∈ workType.order := by
  rcases List.mem_append.mp (mem_uniqueEdges h) with hphase | hloop
  · obtain ⟨⟨phase, index⟩, hentry, hedge⟩ := List.mem_flatMap.mp hphase
    have hid : phase.id ∈ workType.order :=
      List.mem_map_of_mem (List.fst_mem_of_mem_zipIdx hentry)
    rcases List.mem_append.mp hedge with honward | hback
    · obtain ⟨hsource, htarget⟩ := onwardEdges_spec honward
      exact ⟨hsource ▸ hid, htarget⟩
    · obtain ⟨back, hmem, rfl⟩ := List.mem_map.mp hback
      refine ⟨hid, fun target htarget => ?_⟩
      cases htarget
      have := (List.mem_filter.mp hmem).2
      simp only [Bool.and_eq_true, decide_eq_true_eq] at this
      exact this.1.2
  · obtain ⟨loop, hmem, rfl⟩ := List.mem_map.mp hloop
    have := (List.mem_filter.mp hmem).2
    simp only [Bool.and_eq_true, decide_eq_true_eq] at this
    refine ⟨this.1, fun target htarget => ?_⟩
    cases htarget
    exact this.2

/-- The graph of a work type has the edges that the analyses rely on. -/
theorem graphOf_routed (workType : WorkType) : (graphOf workType).Routed where
  source_mem _ h := (mem_routeEdges h).1
  target_mem _ h := (mem_routeEdges h).2
  outgoing id hid := by
    obtain ⟨phase, hphase, rfl⟩ := List.mem_map.mp hid
    obtain ⟨index, hindex⟩ := List.mem_iff_getElem?.mp hphase
    obtain ⟨edge, rest, hedges⟩ :=
      List.exists_cons_of_ne_nil (onwardEdges_ne_nil workType index phase.id)
    have honward : edge ∈ onwardEdges workType index phase.id := hedges ▸ List.mem_cons_self
    have hphases : edge ∈ workType.phases.zipIdx.flatMap fun entry =>
        onwardEdges workType entry.2 entry.1.id ++ backEdges workType entry.2 entry.1 :=
      List.mem_flatMap.mpr ⟨(phase, index), List.mem_zipIdx_iff_getElem?.mpr hindex,
        List.mem_append_left _ honward⟩
    obtain ⟨e, he, hkey⟩ := key_uniqueEdges (List.mem_append_left (loopEdges workType) hphases)
    refine List.ne_nil_of_mem (Graph.mem_outgoing.mpr ⟨he, ?_⟩)
    exact (congrArg Prod.fst hkey).trans (onwardEdges_spec honward).1

/-! ## What steps do -/

theorem nodesOf_id : (nodesOf workType).map Node.id = workType.order := by
  rw [nodesOf, List.map_map]
  rfl

theorem node_eq {node node' : Node} (h : node ∈ nodesOf workType) (h' : node' ∈ nodesOf workType)
    (hid : node.id = node'.id) : node = node' :=
  List.inj_on_of_nodup_map (nodesOf_id ▸ workType.distinctIds) h h' hid

theorem node_order {node : Node} (h : node ∈ nodesOf workType) :
    node.id ∈ (graphOf workType).order := by
  change node.id ∈ workType.order
  rw [← nodesOf_id]
  exact List.mem_map_of_mem h

/-- A step holds a responsibility. -/
def Holds (workType : WorkType) (duty : Duty) (id : Text) : Prop :=
  ∃ node ∈ nodesOf workType, node.id = id ∧ duty ∈ node.responsibilities

theorem mem_gen_iff (workType : WorkType) {duty : Duty} (hduty : duty ∈ required) (id : Text) :
    duty ∈ (graphOf workType).gen id ↔ Holds workType duty id := by
  have hmask : ∀ node : Node, duty ∈ node.mask ↔ duty ∈ node.responsibilities := by
    intro node
    rw [Node.mask, Finset.mem_union, List.mem_toFinset]
    refine or_iff_left fun h => ?_
    split at h
    · rw [Finset.mem_singleton.mp h] at hduty
      exact absurd hduty (by decide)
    · exact absurd h (Finset.notMem_empty duty)
  change duty ∈ (((nodesOf workType).find? (·.id = id)).map Node.mask).getD ∅ ↔ _
  cases hfind : (nodesOf workType).find? (·.id = id) with
  | none =>
      refine ⟨fun h => absurd h (Finset.notMem_empty duty), ?_⟩
      rintro ⟨node, hnode, hid, -⟩
      exact absurd (decide_eq_true hid) (List.find?_eq_none.mp hfind node hnode)
  | some node =>
      have hnode := List.mem_of_find?_eq_some hfind
      have hid : node.id = id := by simpa using List.find?_some hfind
      refine (hmask node).trans ⟨fun h => ⟨node, hnode, hid, h⟩, ?_⟩
      rintro ⟨node', hnode', hid', h⟩
      rwa [node_eq hnode hnode' (hid.trans hid'.symm)]

theorem holds_iff {node : Node} (h : node ∈ nodesOf workType) {duty : Duty} :
    Holds workType duty node.id ↔ duty ∈ node.responsibilities := by
  refine ⟨?_, fun hduty => ⟨node, h, rfl, hduty⟩⟩
  rintro ⟨node', hnode', hid, hduty⟩
  rwa [node_eq h hnode' hid.symm]

/-! ## What is reported -/

def Compiled.Reports (compiled : Compiled) (code : FindingCode) (id : Text) : Prop :=
  ∃ finding ∈ compiled.findings, finding.code = code ∧ finding.phase = id

theorem mem_nodeFindings {nodes : List Node} {code : FindingCode} {found : Node → Bool}
    {finding : Finding} : finding ∈ nodeFindings nodes code found
      ↔ ∃ node ∈ nodes, found node = true ∧ finding = ⟨code, node.id, none, none⟩ := by
  rw [nodeFindings, List.mem_map]
  exact ⟨fun ⟨node, hmem, heq⟩ => ⟨node, (List.mem_filter.mp hmem).1, (List.mem_filter.mp hmem).2,
      heq.symm⟩,
    fun ⟨node, hnode, hfound, heq⟩ => ⟨node, List.mem_filter.mpr ⟨hnode, hfound⟩, heq.symm⟩⟩

theorem endpointFindings_code {graph : Graph} {edge : Edge} {finding : Finding}
    (h : finding ∈ endpointFindings graph edge) :
    finding.code ≠ .implementWithoutPlan ∧ finding.code ≠ .verifyWithoutReview := by
  rw [endpointFindings] at h
  dsimp only at h
  rcases List.mem_append.mp h with h | h
  · rcases List.mem_append.mp h with h | h
    · split at h
      · obtain rfl := List.mem_singleton.mp h
        exact ⟨nofun, nofun⟩
      · exact absurd h List.not_mem_nil
    · split at h
      · obtain rfl := List.mem_singleton.mp h
        exact ⟨nofun, nofun⟩
      · exact absurd h List.not_mem_nil
  · split at h
    · obtain rfl := List.mem_singleton.mp h
      exact ⟨nofun, nofun⟩
    · exact absurd h List.not_mem_nil

/-- A step is reported if it is found to be so. -/
theorem reports_iff (hphases : workType.phases ≠ []) {node : Node} (hnode : node ∈ nodesOf workType) :
    ((compileObligationGraph workType).Reports .implementWithoutPlan node.id
        ↔ implementsUnplanned (graphOf workType) node = true)
      ∧ ((compileObligationGraph workType).Reports .verifyWithoutReview node.id
        ↔ verifiesUnreviewed (graphOf workType) node = true) := by
  have hfindings : (compileObligationGraph workType).findings
      = (endEdges (graphOf workType)).flatMap (endpointFindings (graphOf workType))
        ++ nodeFindings (nodesOf workType) .implementWithoutPlan
            (implementsUnplanned (graphOf workType))
        ++ nodeFindings (nodesOf workType) .verifyWithoutReview
            (verifiesUnreviewed (graphOf workType)) := by
    rw [compileObligationGraph, if_neg hphases]
  rw [Compiled.Reports, Compiled.Reports, hfindings]
  constructor
  · constructor
    · rintro ⟨finding, hmem, hcode, hphase⟩
      rcases List.mem_append.mp hmem with hmem | hmem
      · rcases List.mem_append.mp hmem with hmem | hmem
        · obtain ⟨edge, -, hmem⟩ := List.mem_flatMap.mp hmem
          exact absurd hcode (endpointFindings_code hmem).1
        · obtain ⟨node', hnode', hfound, rfl⟩ := mem_nodeFindings.mp hmem
          rwa [node_eq hnode hnode' hphase.symm]
      · obtain ⟨node', -, -, rfl⟩ := mem_nodeFindings.mp hmem
        cases hcode
    · intro hfound
      exact ⟨_, List.mem_append_left _ (List.mem_append_right _
        (mem_nodeFindings.mpr ⟨node, hnode, hfound, rfl⟩)), rfl, rfl⟩
  · constructor
    · rintro ⟨finding, hmem, hcode, hphase⟩
      rcases List.mem_append.mp hmem with hmem | hmem
      · rcases List.mem_append.mp hmem with hmem | hmem
        · obtain ⟨edge, -, hmem⟩ := List.mem_flatMap.mp hmem
          exact absurd hcode (endpointFindings_code hmem).2
        · obtain ⟨node', -, -, rfl⟩ := mem_nodeFindings.mp hmem
          cases hcode
      · obtain ⟨node', hnode', hfound, rfl⟩ := mem_nodeFindings.mp hmem
        rwa [node_eq hnode hnode' hphase.symm]
    · intro hfound
      exact ⟨_, List.mem_append_right _ (mem_nodeFindings.mpr ⟨node, hnode, hfound, rfl⟩), rfl, rfl⟩

/-! ## The walks of a work type -/

def Follows (workType : WorkType) : Text → Text → Prop := (graphOf workType).Follows

/-- Some walk from the first step leads to the step. -/
def Reached (workType : WorkType) (id : Text) : Prop := (graphOf workType).Reached id

/-- Some walk from the first step leads to the step, without the responsibility
before it. -/
def ReachedWithout (workType : WorkType) (duty : Duty) (id : Text) : Prop :=
  ∃ first, workType.order.head? = some first ∧ ∃ before, Walk (Follows workType) first before id
    ∧ ∀ step ∈ before, ¬ Holds workType duty step

/-- Some walk from the step ends without an omission of the responsibility. -/
def EndsWithout (workType : WorkType) (duty : Duty) (id : Text) : Prop :=
  ∃ before last, Walk (Follows workType) id before last ∧ (graphOf workType).EndsWithout duty last

/-- Some walk from the step ends so, and passes no review. -/
def EndsUnreviewed (workType : WorkType) (id : Text) : Prop :=
  ∃ before last, Walk (Follows workType) id before last
    ∧ (∀ step ∈ before ++ [last], ¬ Holds workType .review step)
    ∧ (graphOf workType).EndsWithout .review last

/-- Some walk from the step passes no review, and ends, in whatever way, or goes on
for ever. -/
def Unreviewed (workType : WorkType) : Text → Prop :=
  Escapes (Follows workType) (fun step => ¬ Holds workType .review step) (graphOf workType).Ends

theorem implementsUnplanned_iff {node : Node} (hnode : node ∈ nodesOf workType) :
    implementsUnplanned (graphOf workType) node = true
      ↔ Reached workType node.id ∧ .implement ∈ node.responsibilities
        ∧ ReachedWithout workType .plan node.id ∧ EndsWithout workType .plan node.id := by
  have horder := node_order hnode
  rw [implementsUnplanned]
  simp only [Bool.and_eq_true, decide_eq_true_eq, Bool.not_eq_true', and_assoc]
  rw [Graph.mem_reachable]
  refine and_congr_right fun hreached => and_congr_right fun _ => and_congr ?_ ?_
  · rw [(Graph.mem_masks (graphOf_routed workType) horder (Graph.mem_reachable.mpr hreached)).1,
      Graph.PassedBefore]
    simp only [AllPass, mem_gen_iff workType (show .plan ∈ required by decide)]
    push Not
    rfl
  · rw [Bool.eq_false_iff, ne_eq,
      Graph.omittedOnEveryRoute_iff (graphOf_routed workType) horder, AllAvoid]
    push Not
    rfl

theorem unreviewed_iff (id : Text) :
    (graphOf workType).Unreviewed id ↔ Unreviewed workType id := by
  rw [Graph.Unreviewed, Unreviewed]
  simp only [mem_gen_iff workType (show .review ∈ required by decide)]
  rfl

theorem verifiesUnreviewed_iff {node : Node} (hnode : node ∈ nodesOf workType) :
    verifiesUnreviewed (graphOf workType) node = true
      ↔ Reached workType node.id ∧ .verify ∈ node.responsibilities ∧ .review ∉ node.responsibilities
        ∧ EndsWithout workType .review node.id ∧ Unreviewed workType node.id := by
  have horder := node_order hnode
  have hrouted := graphOf_routed workType
  rw [verifiesUnreviewed]
  simp only [Bool.and_eq_true, decide_eq_true_eq, Bool.not_eq_true', and_assoc]
  rw [Graph.mem_reachable]
  refine and_congr_right fun _ => and_congr_right fun _ => and_congr_right fun hreview =>
    and_congr ?_ ?_
  · rw [Bool.eq_false_iff, ne_eq, Graph.omittedOnEveryRoute_iff hrouted horder, AllAvoid]
    push Not
    rfl
  · -- the step itself reviews nothing, so that what is behind it decides
    have hfree : .review ∉ (graphOf workType).gen node.id := by
      rw [mem_gen_iff workType (by decide), holds_iff hnode]
      exact hreview
    have hiff := Graph.reviewed_iff hrouted horder
    rw [← Graph.reviewed_fixed node.id horder, Graph.reviewedNext_iff hrouted horder,
      ← Graph.all_reviewed_iff, or_iff_right hfree] at hiff
    rw [Bool.eq_false_iff, ne_eq, hiff, not_not, unreviewed_iff]

/-! ## Exactness -/

/-- The analyses say of a work type what is true of its walks. -/
structure ExactAnalysis (workType : WorkType) : Prop where
  /-- The passes have come to where no rule changes anything. -/
  terminates : (∀ edge ∈ (graphOf workType).forward,
      Graph.reach.changes (graphOf workType).reachable edge = false)
    ∧ ∀ id ∈ workType.order,
      (graphOf workType).intoNext (graphOf workType).masks id = (graphOf workType).masks id
        ∧ (∀ duty, (graphOf workType).omittedNext duty ((graphOf workType).omittedOnEveryRoute duty) id
            = (graphOf workType).omittedOnEveryRoute duty id)
        ∧ (graphOf workType).reviewedNext (graphOf workType).reviewed id
            = (graphOf workType).reviewed id
  /-- An edge to the end from a step that is reached has an endpoint. -/
  endpoints : ∀ edge ∈ (compileObligationGraph workType).edges, edge.target = none →
    Reached workType edge.source → ∃ endpoint ∈ (compileObligationGraph workType).endpoints,
      endpoint.source = edge.source ∧ endpoint.decision = edge.decision ∧ endpoint.route = edge.route
  /-- What is guaranteed there is what every walk to the edge has passed. -/
  guaranteed : ∀ endpoint ∈ (compileObligationGraph workType).endpoints,
    Reached workType endpoint.source ∧ ∀ duty ∈ required, (duty ∈ endpoint.guaranteed
      ↔ ∀ first, workType.order.head? = some first →
          ∀ before, Walk (Follows workType) first before endpoint.source →
            ∃ step ∈ before ++ [endpoint.source], Holds workType duty step)
  implementWithoutPlan : ∀ node ∈ nodesOf workType,
    ((compileObligationGraph workType).Reports .implementWithoutPlan node.id
      ↔ Reached workType node.id ∧ .implement ∈ node.responsibilities
        ∧ ReachedWithout workType .plan node.id ∧ EndsWithout workType .plan node.id)
  verifyWithoutReview : ∀ node ∈ nodesOf workType,
    ((compileObligationGraph workType).Reports .verifyWithoutReview node.id
      ↔ Reached workType node.id ∧ .verify ∈ node.responsibilities ∧ .review ∉ node.responsibilities
        ∧ EndsUnreviewed workType node.id)

/-- For each step that verifies and does not review: where a walk from it ends
without an omission of review, and a walk from it without a review ends or goes on
for ever, there is one that does both. -/
def ReviewDecided (workType : WorkType) : Prop :=
  ∀ node ∈ nodesOf workType, Reached workType node.id → .verify ∈ node.responsibilities →
    .review ∉ node.responsibilities → EndsWithout workType .review node.id →
      Unreviewed workType node.id → EndsUnreviewed workType node.id

theorem phases_ne_nil {node : Node} (h : node ∈ nodesOf workType) : workType.phases ≠ [] := by
  intro hphases
  rw [nodesOf, hphases] at h
  exact absurd h List.not_mem_nil

/-- A walk that ends without an omission and passes no review is of both kinds. -/
theorem EndsUnreviewed.both {id : Text} (h : EndsUnreviewed workType id) :
    EndsWithout workType .review id ∧ Unreviewed workType id := by
  obtain ⟨before, last, hwalk, hfree, hends⟩ := h
  refine ⟨⟨before, last, hwalk, hends⟩, Or.inl ⟨before, last, hwalk, ?_, ?_, ?_⟩⟩
  · exact fun step hstep => hfree step (List.mem_append_left _ hstep)
  · exact hfree last (List.mem_append_right _ (List.mem_singleton_self last))
  · obtain ⟨edge, hedge, hsource, htarget, -⟩ := hends
    exact ⟨edge, hedge, hsource, htarget⟩

theorem guaranteed_iff {id : Text} (horder : id ∈ workType.order) (hreached : Reached workType id)
    {duty : Duty} (hduty : duty ∈ required) :
    duty ∈ ((graphOf workType).masks id).2
      ↔ ∀ first, workType.order.head? = some first →
          ∀ before, Walk (Follows workType) first before id →
            ∃ step ∈ before ++ [id], Holds workType duty step := by
  rw [(Graph.mem_masks (graphOf_routed workType) horder (Graph.mem_reachable.mpr hreached)).2,
    mem_gen_iff workType hduty]
  constructor
  · rintro (hpassed | hholds) first hfirst before hwalk
    · obtain ⟨step, hstep, hgen⟩ := hpassed first hfirst before hwalk
      exact ⟨step, List.mem_append_left _ hstep, (mem_gen_iff workType hduty step).mp hgen⟩
    · exact ⟨id, List.mem_append_right _ (List.mem_singleton_self id), hholds⟩
  · intro hall
    by_cases hholds : Holds workType duty id
    · exact Or.inr hholds
    · refine Or.inl fun first hfirst before hwalk => ?_
      obtain ⟨step, hstep, hheld⟩ := hall first hfirst before hwalk
      rcases List.mem_append.mp hstep with hstep | hstep
      · exact ⟨step, hstep, (mem_gen_iff workType hduty step).mpr hheld⟩
      · rw [List.mem_singleton.mp hstep] at hheld
        exact absurd hheld hholds

/-- **The analyses are exact for a work type if and only if review is decided**
for its steps that verify. -/
theorem exactAnalysis_iff (workType : WorkType) :
    ExactAnalysis workType ↔ ReviewDecided workType := by
  constructor
  · intro h node hnode hreached hverify hreview hends hunreviewed
    have hreports := (reports_iff (phases_ne_nil hnode) hnode).2.mpr
      ((verifiesUnreviewed_iff hnode).mpr ⟨hreached, hverify, hreview, hends, hunreviewed⟩)
    exact ((h.verifyWithoutReview node hnode).mp hreports).2.2.2
  · intro h
    refine ⟨⟨Graph.reach_stable, fun id hid => ⟨Graph.masks_fixed id hid,
      fun duty => Graph.omitted_fixed id hid, Graph.reviewed_fixed id hid⟩⟩, ?_, ?_, ?_, ?_⟩
    · intro edge hedge htarget hreached
      by_cases hphases : workType.phases = []
      · rw [compileObligationGraph, if_pos hphases] at hedge
        exact absurd hedge List.not_mem_nil
      · rw [compileObligationGraph, if_neg hphases] at hedge ⊢
        refine ⟨endpointOf (graphOf workType) edge, List.mem_map_of_mem ?_, rfl, rfl, rfl⟩
        refine List.mem_filter.mpr ⟨hedge, ?_⟩
        simpa [htarget] using Graph.mem_reachable.mpr hreached
    · intro endpoint hendpoint
      by_cases hphases : workType.phases = []
      · rw [compileObligationGraph, if_pos hphases] at hendpoint
        exact absurd hendpoint List.not_mem_nil
      · rw [compileObligationGraph, if_neg hphases] at hendpoint
        obtain ⟨edge, hedge, rfl⟩ := List.mem_map.mp hendpoint
        obtain ⟨hedge, hfound⟩ := List.mem_filter.mp hedge
        have hreached : Reached workType edge.source :=
          Graph.mem_reachable.mp (of_decide_eq_true (Bool.and_eq_true_iff.mp hfound).2)
        refine ⟨hreached, fun duty hduty =>
          Iff.trans ?_ (guaranteed_iff (mem_routeEdges hedge).1 hreached hduty)⟩
        change duty ∈ required.filter (· ∈ ((graphOf workType).masks edge.source).2) ↔ _
        rw [List.mem_filter, decide_eq_true_eq]
        exact and_iff_right hduty
    · intro node hnode
      rw [(reports_iff (phases_ne_nil hnode) hnode).1, implementsUnplanned_iff hnode]
    · intro node hnode
      rw [(reports_iff (phases_ne_nil hnode) hnode).2, verifiesUnreviewed_iff hnode]
      refine and_congr_right fun hreached => and_congr_right fun hverify =>
        and_congr_right fun hreview => ?_
      exact ⟨fun ⟨hends, hunreviewed⟩ =>
          h node hnode hreached hverify hreview hends hunreviewed, EndsUnreviewed.both⟩

end Edges

/-! ## A loop without a review -/

/-- A step that builds and tests, one that tests again and can send the work back,
and a last one that a person approves. -/
def loopedTests : WorkType where
  phases :=
    [⟨js "build", none, false, true, false, none, none⟩,
      ⟨js "test", some (js "test-evidence"), false, false, false, none, none⟩,
      ⟨js "accept", none, false, false, false, none, some ⟨.required, []⟩⟩]
  decisions := []
  reworkLoops := [(js "test", js "build")]
  omits := []
  plannedClaims := none
  distinctIds := by decide
  routed := fun _ h => absurd h List.not_mem_nil
  known := fun _ h => absurd h List.not_mem_nil

/-- Every walk that ends has passed the last step and its review.  The compiler
reports the first one all the same, for the loop. -/
theorem loopedTests_not_exact : ¬ ExactAnalysis loopedTests := by
  intro h
  have hreports : (compileObligationGraph loopedTests).Reports .verifyWithoutReview (js "build") := by
    unfold Compiled.Reports
    decide +kernel
  obtain ⟨-, -, -, before, last, -, hfree, edge, hedge, rfl, htarget, -⟩ :=
    (h.verifyWithoutReview ⟨js "build", [.implement, .verify], none⟩ (by decide +kernel)).mp hreports
  have hlast : ∀ edge ∈ (graphOf loopedTests).edges, edge.target = none →
      edge.source = js "accept" := by decide +kernel
  refine hfree edge.source (List.mem_append_right _ (List.mem_singleton_self _)) ?_
  rw [hlast edge hedge htarget]
  exact ⟨⟨js "accept", [.review], some .human⟩, by decide +kernel, rfl, by decide⟩

end Evidence

end SingularityFlow
