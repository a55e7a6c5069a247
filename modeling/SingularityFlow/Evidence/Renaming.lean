/-
# Renaming the steps of a work type

A renaming gives every step another name, wherever the work type mentions it.  The
graph of the renamed work type is the graph with other names, where the routes of
decisions are still read as they were: a step named like the end, or like the next
step, is not what a route to that name leads to.

The analyses look at names only to tell them apart.  So what they find of the
renamed graph is what they find of the graph, under the new names.
-/
import SingularityFlow.Evidence.ObligationAnalysis

namespace SingularityFlow

open Ecma Passes

namespace Evidence

/-! ## Renaming -/

section Rename

variable (naming : Text → Text)

/-- A target of a route: the words for the end and for the next step are no steps. -/
def renameTarget (target : Text) : Text :=
  if target = js "end" ∨ target = js "next" then target else naming target

def Approval.rename (approval : Approval) : Approval :=
  { approval with rejectTo := approval.rejectTo.map naming }

def Phase.rename (phase : Phase) : Phase :=
  { phase with
    id := naming phase.id
    testEvidenceFrom := phase.testEvidenceFrom.map naming
    approval := phase.approval.map (Approval.rename naming) }

def PlannedClaims.rename (claims : PlannedClaims) : PlannedClaims :=
  { claims with
    clausePhases := claims.clausePhases.map naming
    owners := claims.owners.map naming }

def Route.rename (route : Route) : Route := { route with target := renameTarget naming route.target }

def Decision.rename (decision : Decision) : Decision :=
  { decision with
    after := naming decision.after
    routes := decision.routes.map (Route.rename naming) }

/-- The work type with other names for its steps. -/
def WorkType.rename (workType : WorkType) (h : Set.InjOn naming {id | id ∈ workType.order}) : WorkType where
  phases := workType.phases.map (Phase.rename naming)
  decisions := workType.decisions.map (Decision.rename naming)
  reworkLoops := workType.reworkLoops.map fun loop => (naming loop.1, naming loop.2)
  omits := workType.omits
  plannedClaims := workType.plannedClaims.map (PlannedClaims.rename naming)
  distinctIds := by
    rw [List.map_map]
    change (workType.phases.map (naming ∘ Phase.id)).Nodup
    rw [← List.map_map]
    exact workType.distinctIds.map_on fun a ha b hb heq => h ha hb heq
  routed decision hdecision := by
    obtain ⟨decision, hmem, rfl⟩ := List.mem_map.mp hdecision
    exact fun hnil => workType.routed decision hmem (List.map_eq_nil_iff.mp hnil)
  known decision hdecision route hroute := by
    obtain ⟨decision, hmem, rfl⟩ := List.mem_map.mp hdecision
    obtain ⟨route, hmember, rfl⟩ := List.mem_map.mp hroute
    change renameTarget naming route.target = _ ∨ renameTarget naming route.target = _ ∨ _
    unfold renameTarget
    split
    · next hword => exact hword.imp_right .inl
    · next hstep =>
        have hid := ((workType.known decision hmem route hmember).resolve_left
          fun h => hstep (.inl h)).resolve_left fun h => hstep (.inr h)
        obtain ⟨phase, hphase, heq⟩ := List.mem_map.mp hid
        refine .inr (.inr (List.mem_map.mpr ⟨_, List.mem_map_of_mem hphase, ?_⟩))
        change naming phase.id = renameTarget naming route.target
        rw [renameTarget, if_neg hstep, heq]

def anyStep : Text := js "any-step:"

/-- The route that a decision for any step has to a step is named after it. -/
def renameRoute (target : Option Text) (route : Text) : Text :=
  match target with
  | some target => if route = anyStep ++ target then anyStep ++ naming target else route
  | none => route

def Edge.rename (edge : Edge) : Edge :=
  { edge with
    source := naming edge.source
    target := edge.target.map naming
    route := edge.route.map (renameRoute naming edge.target) }

def Node.rename (node : Node) : Node := { node with id := naming node.id }

def Endpoint.rename (endpoint : Endpoint) : Endpoint := { endpoint with source := naming endpoint.source }

def Finding.rename (finding : Finding) : Finding := { finding with phase := naming finding.phase }

end Rename

/-! ## The graph under other names -/

/-- The graph is another one under other names; edges are the same where the analyses
read them. -/
structure Renames (naming : Text → Text) (graph graph' : Graph) (edge : Edge → Edge) : Prop where
  injective : Function.Injective naming
  order : graph'.order = graph.order.map naming
  gen : ∀ id, graph'.gen (naming id) = graph.gen id
  edges : graph'.edges = graph.edges.map edge
  source : ∀ e, (edge e).source = naming e.source
  target : ∀ e, (edge e).target = e.target.map naming
  omits : ∀ e, (edge e).omits = e.omits
  decision : ∀ e, (edge e).decision = e.decision
  route : ∀ e, e.target = none → (edge e).route = e.route

namespace Renames

variable {naming : Text → Text} {graph graph' : Graph} {edge : Edge → Edge}

theorem target_none (h : Renames naming graph graph' edge) (e : Edge) :
    (edge e).target = none ↔ e.target = none := by
  rw [h.target, Option.map_eq_none_iff]

theorem forward (h : Renames naming graph graph' edge) : graph'.forward = graph.forward.map edge := by
  unfold Graph.forward
  rw [h.edges, List.filter_map]
  congr 1
  refine List.filter_congr fun e _ => ?_
  exact decide_eq_decide.mpr (not_congr (h.target_none e))

theorem outgoing (h : Renames naming graph graph' edge) (id : Text) :
    graph'.outgoing (naming id) = (graph.outgoing id).map edge := by
  unfold Graph.outgoing
  rw [h.edges, List.filter_map]
  congr 1
  refine List.filter_congr fun e _ => ?_
  change decide ((edge e).source = naming id) = decide (e.source = id)
  rw [h.source, decide_eq_decide]
  exact h.injective.eq_iff

theorem preds (h : Renames naming graph graph' edge) (id : Text) :
    graph'.preds (naming id) = (graph.preds id).map naming := by
  unfold Graph.preds
  rw [h.edges, List.filter_map, List.map_map, List.map_map]
  have hfilter : graph.edges.filter ((fun e => decide (e.target = some (naming id))) ∘ edge)
      = graph.edges.filter fun e => decide (e.target = some id) := by
    refine List.filter_congr fun e _ => ?_
    change decide ((edge e).target = some (naming id)) = decide (e.target = some id)
    rw [h.target, decide_eq_decide, ← Option.map_some]
    exact (Option.map_injective h.injective).eq_iff
  rw [hfilter]
  exact List.map_congr_left fun e _ => h.source e

theorem mem_map (h : Renames naming graph graph' edge) {id : Text} {ids : List Text} :
    naming id ∈ ids.map naming ↔ id ∈ ids := List.mem_map_of_injective h.injective

theorem head? (h : Renames naming graph graph' edge) : graph'.order.head? = graph.order.head?.map naming := by
  rw [h.order, List.head?_map]

theorem reachable (h : Renames naming graph graph' edge) : graph'.reachable = graph.reachable.map naming := by
  unfold Graph.reachable
  rw [h.forward, h.head?, List.length_map]
  refine settle_related (fun (s s' : List Text) => s' = s.map naming) (fun e e' => e' = edge e) ?_ ?_
    (List.forall₂_map_right_iff.mpr (List.forall₂_same.mpr fun _ _ => rfl)) ?_
  · rintro s _ e _ rfl rfl
    change (decide ((edge e).source ∈ s.map naming) && (edge e).target.any (· ∉ s.map naming))
      = (decide (e.source ∈ s) && e.target.any (· ∉ s))
    rw [h.source, h.target, Option.any_map]
    congr 1
    · exact decide_eq_decide.mpr h.mem_map
    · congr 1
      funext target
      exact decide_eq_decide.mpr (not_congr h.mem_map)
  · rintro s _ e _ rfl rfl -
    change s.map naming ++ (edge e).target.toList = (s ++ e.target.toList).map naming
    rw [h.target, List.map_append]
    cases e.target <;> rfl
  · cases graph.order.head? <;> rfl

theorem mem_reachable (h : Renames naming graph graph' edge) {id : Text} :
    naming id ∈ graph'.reachable ↔ id ∈ graph.reachable := by
  rw [h.reachable]
  exact h.mem_map

/-- Values at places, of which a rule finds the same ones under other names. -/
theorem settled (h : Renames naming graph graph' edge) {V : Type} [DecidableEq V]
    {next next' : (Text → V) → Text → V}
    (hnext : ∀ {values values' : Text → V}, (∀ id, values' (naming id) = values id) →
      ∀ id, next' values' (naming id) = next values id)
    {values values' : Text → V} (hvalues : ∀ id, values' (naming id) = values id) {fuel : Nat} (id : Text) :
    settle (assign next') graph'.order fuel values' (naming id)
      = settle (assign next) graph.order fuel values id := by
  rw [h.order]
  refine settle_related (fun (values values' : Text → V) => ∀ id, values' (naming id) = values id)
    (fun id id' => id' = naming id) ?_ ?_
    (List.forall₂_map_right_iff.mpr (List.forall₂_same.mpr fun _ _ => rfl)) hvalues id
  · rintro values values' place _ hvalues rfl
    exact decide_eq_decide.mpr (by rw [hnext hvalues, hvalues])
  · rintro values values' place _ hvalues rfl - other
    change Function.update values' (naming place) (next' values' (naming place)) (naming other)
      = Function.update values place (next values place) other
    by_cases heq : other = place
    · subst heq
      rw [Function.update_self, Function.update_self, hnext hvalues]
    · rw [Function.update_of_ne (h.injective.ne heq), Function.update_of_ne heq, hvalues]

theorem masks (h : Renames naming graph graph' edge) (id : Text) :
    graph'.masks (naming id) = graph.masks id := by
  unfold Graph.masks
  have hfirst : ∀ id, graph'.order.head? = some (naming id) ↔ graph.order.head? = some id := by
    intro id
    rw [h.head?, ← Option.map_some]
    exact (Option.map_injective h.injective).eq_iff
  rw [show graph'.order.length = graph.order.length by rw [h.order, List.length_map]]
  refine h.settled (fun {values values'} hvalues id => ?_) (fun id => ?_) id
  · unfold Graph.intoNext
    rw [h.preds, h.gen]
    by_cases hid : id ∈ graph.reachable
    · rw [if_neg (not_not.mpr (h.mem_reachable.mpr hid)), if_neg (not_not.mpr hid)]
      have hincoming : ((graph.preds id).map naming).filter (· ∈ graph'.reachable)
          = ((graph.preds id).filter (· ∈ graph.reachable)).map naming := by
        rw [List.filter_map]
        congr 1
        exact List.filter_congr fun source _ => decide_eq_decide.mpr h.mem_reachable
      dsimp only
      rw [hincoming, List.foldl_map]
      simp only [hvalues, hfirst, List.map_eq_nil_iff]
    · rw [if_pos (h.mem_reachable.not.mpr hid), if_pos hid, hvalues]
  · unfold Graph.masksStart
    simp only [hfirst, h.gen]

theorem omittedOnEveryRoute (h : Renames naming graph graph' edge) (duty : Duty) (id : Text) :
    graph'.omittedOnEveryRoute duty (naming id) = graph.omittedOnEveryRoute duty id := by
  unfold Graph.omittedOnEveryRoute
  rw [show graph'.order.length = graph.order.length by rw [h.order, List.length_map]]
  refine h.settled (fun {values values'} hvalues id => ?_) (fun id => ?_) id
  · unfold Graph.omittedNext
    rw [h.outgoing, List.all_map]
    congr 1
    · exact decide_eq_decide.mpr (not_congr List.map_eq_nil_iff)
    · refine List.all_congr rfl fun e => ?_
      simp only [Function.comp_apply]
      rw [h.target, Edge.omitting, h.omits]
      cases e.target with
      | none => rfl
      | some target => exact hvalues target
  · rw [h.order]
    exact decide_eq_decide.mpr h.mem_map

theorem reviewedBehind (h : Renames naming graph graph' edge) {values values' : Text → Bool}
    (hvalues : ∀ id, values' (naming id) = values id) (e : Edge) :
    Graph.reviewedBehind values' (edge e) = Graph.reviewedBehind values e := by
  unfold Graph.reviewedBehind
  rw [h.target]
  cases e.target with
  | none => rfl
  | some target => exact hvalues target

theorem reviewed (h : Renames naming graph graph' edge) (id : Text) :
    graph'.reviewed (naming id) = graph.reviewed id := by
  unfold Graph.reviewed
  rw [show graph'.order.length = graph.order.length by rw [h.order, List.length_map]]
  refine h.settled (fun {values values'} hvalues id => ?_) (fun _ => rfl) id
  unfold Graph.reviewedNext
  rw [h.outgoing, h.gen, List.all_map]
  have hall : (graph.outgoing id).all (Graph.reviewedBehind values' ∘ edge)
      = (graph.outgoing id).all (Graph.reviewedBehind values) :=
    List.all_congr rfl fun e => h.reviewedBehind hvalues e
  rw [hall]
  simp only [ne_eq, List.map_eq_nil_iff]

theorem endEdges (h : Renames naming graph graph' edge) :
    Evidence.endEdges graph' = (Evidence.endEdges graph).map edge := by
  unfold Evidence.endEdges
  rw [h.edges, List.filter_map]
  congr 1
  refine List.filter_congr fun e _ => ?_
  change (decide ((edge e).target = none) && decide ((edge e).source ∈ graph'.reachable))
    = (decide (e.target = none) && decide (e.source ∈ graph.reachable))
  rw [h.source]
  congr 1
  · exact decide_eq_decide.mpr (h.target_none e)
  · exact decide_eq_decide.mpr h.mem_reachable

/-- An edge to the end guarantees and misses the same. -/
theorem endpointOf (h : Renames naming graph graph' edge) {e : Edge} (he : e.target = none) :
    Evidence.endpointOf graph' (edge e) = (Evidence.endpointOf graph e).rename naming := by
  unfold Evidence.endpointOf Endpoint.rename
  simp only [h.source, h.masks, h.decision, h.route e he, Edge.omitting, h.omits]

theorem endpointFindings (h : Renames naming graph graph' edge) {e : Edge} (he : e.target = none) :
    Evidence.endpointFindings graph' (edge e)
      = (Evidence.endpointFindings graph e).map (Finding.rename naming) := by
  unfold Evidence.endpointFindings
  dsimp only
  rw [h.endpointOf he]
  have hmissing : ((Evidence.endpointOf graph e).rename naming).missing
      = (Evidence.endpointOf graph e).missing := rfl
  have hguaranteed : ((Evidence.endpointOf graph e).rename naming).guaranteed
      = (Evidence.endpointOf graph e).guaranteed := rfl
  have homitting : (edge e).omitting .review = e.omitting .review := by
    unfold Edge.omitting
    rw [h.omits]
  rw [hmissing, hguaranteed, homitting, h.source, h.masks, h.decision, h.route e he, h.omits,
    List.map_append, List.map_append, apply_ite (List.map (Finding.rename naming)),
    apply_ite (List.map (Finding.rename naming)), apply_ite (List.map (Finding.rename naming))]
  rfl

theorem implementsUnplanned (h : Renames naming graph graph' edge) (node : Node) :
    Evidence.implementsUnplanned graph' (node.rename naming) = Evidence.implementsUnplanned graph node := by
  unfold Evidence.implementsUnplanned Node.rename
  dsimp only
  rw [h.masks, h.omittedOnEveryRoute]
  congr 3
  exact decide_eq_decide.mpr h.mem_reachable

theorem verifiesUnreviewed (h : Renames naming graph graph' edge) (node : Node) :
    Evidence.verifiesUnreviewed graph' (node.rename naming) = Evidence.verifiesUnreviewed graph node := by
  unfold Evidence.verifiesUnreviewed Node.rename
  dsimp only
  rw [h.omittedOnEveryRoute, h.outgoing, List.all_map]
  have hall : (graph.outgoing node.id).all (Graph.reviewedBehind graph'.reviewed ∘ edge)
      = (graph.outgoing node.id).all (Graph.reviewedBehind graph.reviewed) :=
    List.all_congr rfl fun e => h.reviewedBehind h.reviewed e
  rw [hall]
  congr 4
  exact decide_eq_decide.mpr h.mem_reachable

theorem nodeFindings {nodes : List Node} (code : FindingCode) {found found' : Node → Bool}
    (hfound : ∀ node, found' (node.rename naming) = found node) :
    Evidence.nodeFindings (nodes.map (Node.rename naming)) code found'
      = (Evidence.nodeFindings nodes code found).map (Finding.rename naming) := by
  unfold Evidence.nodeFindings
  rw [List.filter_map, List.map_map, List.map_map]
  have hfilter : nodes.filter (found' ∘ Node.rename naming) = nodes.filter found :=
    List.filter_congr fun node _ => hfound node
  rw [hfilter]
  rfl

end Renames

/-! ## The graph of a renamed work type -/

section WorkType

variable {naming : Text → Text} {workType : WorkType}

/-- The work type passes the checks of its definition: names are in lower-case kebab
case, and no two routes of a decision have the same. -/
structure Valid (workType : WorkType) : Prop where
  ids : ∀ id ∈ workType.order, kebabCase id = true
  sources : ∀ phase ∈ workType.phases, ∀ source, phase.testEvidenceFrom = some source →
    kebabCase source = true
  routes : ∀ decision ∈ workType.decisions, ∀ route ∈ decision.routes, kebabCase route.id = true
  routeIds : ∀ decision ∈ workType.decisions, (decision.routes.map Route.id).Nodup

theorem not_anyStep_of_kebab {t : Text} (h : kebabCase t = true) : ¬ anyStep <+: t := by
  rintro ⟨rest, rfl⟩
  obtain ⟨part, parts, hparts⟩ := List.exists_cons_of_ne_nil (List.splitOn_ne_nil 0x2D rest)
  -- the part behind the hyphen has the colon in it
  have hsplit : (anyStep ++ rest).splitOn 0x2D = js "any" :: (js "step:" ++ part) :: parts := by
    have hunits : anyStep ++ rest
        = 0x61 :: 0x6E :: 0x79 :: 0x2D :: 0x73 :: 0x74 :: 0x65 :: 0x70 :: 0x3A :: rest := rfl
    rw [hunits]
    simp only [List.splitOn_cons_eq_if_modifyHead, hparts, List.modifyHead_cons]
    rfl
  rw [kebabCase, hsplit, List.all_cons, List.all_cons] at h
  simp only [Bool.and_eq_true] at h
  have hcolon := List.all_eq_true.mp h.2.1.2 0x3A (List.mem_append_left _ (by decide))
  cases hcolon

theorem ne_nil_of_kebab {t : Text} (h : kebabCase t = true) : t ≠ [] := by
  rintro rfl
  cases h

/-- A route that a decision for any step has is named after what it leads to, and no
other route is named so. -/
def Edge.Named (edge : Edge) : Prop :=
  ∀ route, edge.route = some route →
    route = anyStep ++ edge.target.getD (js "end") ∨ ¬ anyStep <+: route

theorem renameRoute_inj {target route route' : Text}
    (h : route = anyStep ++ target ∨ ¬ anyStep <+: route)
    (h' : route' = anyStep ++ target ∨ ¬ anyStep <+: route')
    (heq : renameRoute naming (some target) route = renameRoute naming (some target) route') :
    route = route' := by
  unfold renameRoute at heq
  dsimp only at heq
  split at heq
  · next hnamed =>
      split at heq
      · next hnamed' => rw [hnamed, hnamed']
      · next hnot =>
          exact absurd ⟨naming target, heq⟩ (h'.resolve_left hnot)
  · next hnot =>
      split at heq
      · exact absurd ⟨naming target, heq.symm⟩ (h.resolve_left hnot)
      · exact heq

theorem key_rename (hinjective : Function.Injective naming) {e f : Edge} (he : e.Named) (hf : f.Named) :
    (e.rename naming).key = (f.rename naming).key ↔ e.key = f.key := by
  constructor
  · intro h
    obtain ⟨hsource, h⟩ := Prod.mk.inj h
    obtain ⟨htarget, h⟩ := Prod.mk.inj h
    obtain ⟨hkind, h⟩ := Prod.mk.inj h
    obtain ⟨hdecision, hroute⟩ := Prod.mk.inj h
    have hsame : e.target = f.target := Option.map_injective hinjective htarget
    have hroutes : e.route = f.route := by
      change e.route.map (renameRoute naming e.target) = f.route.map (renameRoute naming f.target) at hroute
      rw [← hsame] at hroute
      cases hother : e.route with
      | none =>
          rw [hother, Option.map_none] at hroute
          exact (Option.map_eq_none_iff.mp hroute.symm).symm
      | some route =>
          rw [hother, Option.map_some] at hroute
          obtain ⟨route', hroute', heq⟩ := Option.map_eq_some_iff.mp hroute.symm
          rw [hroute']
          congr 1
          cases htarget' : e.target with
          | none =>
              rw [htarget'] at heq
              exact heq.symm
          | some target =>
              rw [htarget'] at heq
              have hnamed := he route hother
              have hnamed' := hf route' hroute'
              rw [htarget'] at hnamed
              rw [← hsame, htarget'] at hnamed'
              exact renameRoute_inj hnamed hnamed' heq.symm
    change e.kind = f.kind at hkind
    change e.decision = f.decision at hdecision
    unfold Edge.key
    rw [hinjective hsource, hsame, hroutes, hkind, hdecision]
  · intro h
    obtain ⟨hsource, h⟩ := Prod.mk.inj h
    obtain ⟨htarget, h⟩ := Prod.mk.inj h
    obtain ⟨hkind, h⟩ := Prod.mk.inj h
    obtain ⟨hdecision, hroute⟩ := Prod.mk.inj h
    unfold Edge.key Edge.rename
    dsimp only
    rw [hsource, htarget, hkind, hdecision, hroute]

/-- Edges are the same as another under other names exactly where they were. -/
theorem uniqueEdges_map {rename : Edge → Edge} {edges : List Edge}
    (h : ∀ e ∈ edges, ∀ f ∈ edges, ((rename e).key = (rename f).key ↔ e.key = f.key)) :
    uniqueEdges (edges.map rename) = (uniqueEdges edges).map rename := by
  have hset : ∀ (known : List Edge) (e : Edge), (∀ f ∈ known, f ∈ edges) → e ∈ edges →
      setEdge (known.map rename) (rename e) = (setEdge known e).map rename := by
    intro known e hknown he
    unfold setEdge
    have hany : (known.map rename).any (fun f => f.key = (rename e).key)
        = known.any fun f => f.key = e.key := by
      rw [List.any_map, Bool.eq_iff_iff, List.any_eq_true, List.any_eq_true]
      refine exists_congr fun f => and_congr_right fun hf => ?_
      change decide ((rename f).key = (rename e).key) = true ↔ decide (f.key = e.key) = true
      rw [decide_eq_true_eq, decide_eq_true_eq]
      exact h f (hknown f hf) e he
    rw [hany]
    split
    · rw [List.map_map, List.map_map]
      refine List.map_congr_left fun f hf => ?_
      change (if (rename f).key = (rename e).key then rename e else rename f)
        = rename (if f.key = e.key then e else f)
      by_cases hkey : f.key = e.key
      · rw [if_pos hkey, if_pos ((h f (hknown f hf) e he).mpr hkey)]
      · rw [if_neg hkey, if_neg fun heq => hkey ((h f (hknown f hf) e he).mp heq)]
    · rw [List.map_append]
      rfl
  have hfold : ∀ (rest known : List Edge), (∀ f ∈ known, f ∈ edges) → (∀ f ∈ rest, f ∈ edges) →
      (rest.map rename).foldl setEdge (known.map rename) = (rest.foldl setEdge known).map rename := by
    intro rest
    induction rest with
    | nil => exact fun _ _ _ => rfl
    | cons e rest ih =>
        intro known hknown hrest
        obtain ⟨he, hrest⟩ := List.forall_mem_cons.mp hrest
        rw [List.map_cons, List.foldl_cons, List.foldl_cons, hset known e hknown he]
        refine ih (setEdge known e) (fun f hf => ?_) hrest
        rcases mem_setEdge hf with hf | rfl
        · exact hknown f hf
        · exact he
  exact hfold edges [] nofun fun _ hf => hf

/-- Which routes of decisions are read as they were: none leads to a step with the new
name of the end, or with that of the next step where it is another one. -/
def ReadsRoutes (naming : Text → Text) (workType : WorkType) : Prop :=
  ∀ index phase decision, workType.phases[index]? = some phase →
    workType.decisions.find? (·.after = phase.id) = some decision → decision.anyStep = false →
    ∀ route ∈ decision.routes, route.target ≠ js "end" → route.target ≠ js "next" →
      naming route.target ≠ js "end" ∧
        (naming route.target = js "next" → workType.order[index + 1]? = some route.target)

theorem order_rename (h : Set.InjOn naming {id | id ∈ workType.order}) :
    (workType.rename naming h).order = workType.order.map naming := by
  unfold WorkType.order WorkType.rename
  dsimp only
  rw [List.map_map, List.map_map]
  rfl

theorem find?_rename (hinjective : Function.Injective naming)
    (h : Set.InjOn naming {id | id ∈ workType.order}) (id : Text) :
    (workType.rename naming h).decisions.find? (·.after = naming id)
      = (workType.decisions.find? (·.after = id)).map (Decision.rename naming) := by
  unfold WorkType.rename
  dsimp only
  rw [List.find?_map]
  congr 2
  funext decision
  exact decide_eq_decide.mpr hinjective.eq_iff

/-- What a route to a target leads to. -/
def readTarget (next : Option Text) (target : Text) : Option Text :=
  if target = js "end" then none else if target = js "next" then next else some target

theorem readTarget_rename (next : Option Text) {target : Text}
    (h : target ≠ js "end" → target ≠ js "next" →
      naming target ≠ js "end" ∧ (naming target = js "next" → next = some target)) :
    readTarget (next.map naming) (renameTarget naming target) = (readTarget next target).map naming := by
  by_cases hend : target = js "end"
  · rw [show renameTarget naming target = target from if_pos (.inl hend)]
    unfold readTarget
    rw [if_pos hend, if_pos hend]
    rfl
  by_cases hnext : target = js "next"
  · rw [show renameTarget naming target = target from if_pos (.inr hnext)]
    unfold readTarget
    rw [if_neg hend, if_neg hend, if_pos hnext, if_pos hnext]
  · obtain ⟨hnotEnd, hword⟩ := h hend hnext
    rw [show renameTarget naming target = naming target from if_neg (not_or.mpr ⟨hend, hnext⟩)]
    unfold readTarget
    rw [if_neg hnotEnd, if_neg hend, if_neg hnext]
    split
    · next heq => rw [hword heq]
    · rfl

/-- The ways on from a step, under other names. -/
theorem onwardEdges_rename (hvalid : Valid workType) (hinjective : Function.Injective naming)
    (h : Set.InjOn naming {id | id ∈ workType.order}) (hreads : ReadsRoutes naming workType)
    {index : Nat} {phase : Phase} (hphase : workType.phases[index]? = some phase) :
    onwardEdges (workType.rename naming h) index (naming phase.id)
      = (onwardEdges workType index phase.id).map (Edge.rename naming) := by
  have hnext : (workType.rename naming h).order[index + 1]? = workType.order[index + 1]?.map naming := by
    rw [order_rename, List.getElem?_map]
  unfold onwardEdges
  dsimp only
  rw [find?_rename hinjective, hnext]
  cases hdecision : workType.decisions.find? (·.after = phase.id) with
  | none =>
      simp only [Option.map_none, List.map_cons, List.map_nil, Edge.rename, Option.map_eq_none_iff]
      rfl
  | some decision =>
      have hmem := List.mem_of_find?_eq_some hdecision
      simp only [Option.map_some]
      change (if decision.anyStep = true then _ else _) = _
      split
      · rw [order_rename, List.map_append, List.filter_map, List.map_map, List.map_map]
        have hothers : workType.order.filter ((fun target => decide (target ≠ naming phase.id)) ∘ naming)
            = workType.order.filter fun target => decide (target ≠ phase.id) :=
          List.filter_congr fun target _ => decide_eq_decide.mpr hinjective.ne_iff
        rw [hothers]
        congr 1
        refine List.map_congr_left fun target _ => ?_
        change _ = Edge.mk _ _ _ _ (some (if anyStep ++ target = anyStep ++ target then _ else _)) _
        rw [if_pos rfl]
        rfl
      · next hroutes =>
          change (decision.routes.map (Route.rename naming)).map _ = _
          rw [List.map_map, List.map_map]
          refine List.map_congr_left fun route hroute => ?_
          have hnamed : ∀ target, renameRoute naming target route.id = route.id := by
            intro target
            cases target with
            | none => rfl
            | some target =>
                refine if_neg fun heq => ?_
                exact not_anyStep_of_kebab (hvalid.routes decision hmem route hroute)
                  (heq ▸ List.prefix_append anyStep target)
          have hread := readTarget_rename workType.order[index + 1]? fun hend hnext =>
            hreads index phase decision hphase hdecision (Bool.eq_false_iff.mpr hroutes) route hroute
              hend hnext
          have homits : (renameTarget naming route.target = js "next"
              ∧ readTarget (workType.order[index + 1]?.map naming) (renameTarget naming route.target) = none)
              ↔ route.target = js "next" ∧ readTarget workType.order[index + 1]? route.target = none := by
            rw [hread, Option.map_eq_none_iff]
            refine and_congr_left fun hnone => ⟨fun hword => ?_, fun hword => ?_⟩
            · by_contra hstep
              unfold readTarget at hnone
              rw [if_neg hstep] at hnone
              split at hnone
              · next hend =>
                  rw [renameTarget, if_pos (.inl hend), hend] at hword
                  exact absurd hword (by decide)
              · cases hnone
            · rw [renameTarget, if_pos (.inr hword), hword]
          obtain ⟨id, target, omits⟩ := route
          dsimp only at hnamed hread homits
          change Edge.mk _ (readTarget _ (renameTarget naming target)) .route _ _ _
            = Edge.mk _ ((readTarget _ target).map naming) .route _
                (some (renameRoute naming (readTarget _ target) id)) _
          simp only [hnamed, hread]
          cases omits with
          | some omits => rfl
          | none => exact congrArg (Edge.mk _ _ .route _ _) (if_congr homits rfl rfl)

theorem idxOf_rename (hinjective : Function.Injective naming) (id : Text) :
    ∀ ids : List Text, (ids.map naming).idxOf (naming id) = ids.idxOf id
  | [] => rfl
  | other :: ids => by
      rw [List.map_cons, List.idxOf_cons, List.idxOf_cons, idxOf_rename hinjective id ids]
      congr 1
      exact Bool.eq_iff_iff.mpr (by simp [hinjective.eq_iff])

theorem backEdges_rename (hinjective : Function.Injective naming)
    (h : Set.InjOn naming {id | id ∈ workType.order}) (index : Nat) (phase : Phase) :
    backEdges (workType.rename naming h) index (phase.rename naming)
      = (backEdges workType index phase).map (Edge.rename naming) := by
  unfold backEdges
  dsimp only
  have hreject : (((phase.rename naming).approval.map Approval.rejectTo).getD [])
      = ((phase.approval.map Approval.rejectTo).getD []).map naming := by
    change (((phase.approval.map (Approval.rename naming)).map Approval.rejectTo).getD []) = _
    cases phase.approval <;> rfl
  rw [hreject, List.filter_map, List.map_map, List.map_map]
  refine congrArg₂ List.map rfl (List.filter_congr fun back _ => ?_)
  change ((naming back ≠ naming phase.id && naming back ∈ (workType.rename naming h).order)
    && (workType.rename naming h).order.idxOf (naming back) < index) = _
  rw [order_rename, idxOf_rename hinjective]
  congr 2
  · exact decide_eq_decide.mpr hinjective.ne_iff
  · exact decide_eq_decide.mpr (List.mem_map_of_injective hinjective)

theorem loopEdges_rename (hinjective : Function.Injective naming)
    (h : Set.InjOn naming {id | id ∈ workType.order}) :
    loopEdges (workType.rename naming h) = (loopEdges workType).map (Edge.rename naming) := by
  unfold loopEdges
  change ((workType.reworkLoops.map fun loop => (naming loop.1, naming loop.2)).filter _).map _ = _
  rw [List.filter_map, List.map_map, List.map_map]
  refine congrArg₂ List.map rfl (List.filter_congr fun loop _ => ?_)
  change (naming loop.1 ∈ (workType.rename naming h).order && naming loop.2 ∈ (workType.rename naming h).order) = _
  rw [order_rename]
  congr 1
  · exact decide_eq_decide.mpr (List.mem_map_of_injective hinjective)
  · exact decide_eq_decide.mpr (List.mem_map_of_injective hinjective)

/-- All edges of a work type before equal ones are dropped. -/
def everyEdge (workType : WorkType) : List Edge :=
  (workType.phases.zipIdx.flatMap fun entry =>
    onwardEdges workType entry.2 entry.1.id ++ backEdges workType entry.2 entry.1) ++ loopEdges workType

theorem everyEdge_rename (hvalid : Valid workType) (hinjective : Function.Injective naming)
    (h : Set.InjOn naming {id | id ∈ workType.order}) (hreads : ReadsRoutes naming workType) :
    everyEdge (workType.rename naming h) = (everyEdge workType).map (Edge.rename naming) := by
  unfold everyEdge
  rw [List.map_append, List.map_flatMap, loopEdges_rename hinjective]
  congr 1
  change ((workType.phases.map (Phase.rename naming)).zipIdx.flatMap _) = _
  rw [List.zipIdx_map, List.flatMap_map]
  refine List.flatMap_congr fun entry hentry => ?_
  have hphase : workType.phases[entry.2]? = some entry.1 := List.mem_zipIdx_iff_getElem?.mp hentry
  change onwardEdges _ entry.2 (naming entry.1.id) ++ backEdges _ entry.2 (entry.1.rename naming) = _
  rw [List.map_append, onwardEdges_rename hvalid hinjective h hreads hphase, backEdges_rename hinjective]

theorem onwardEdges_named (hvalid : Valid workType) {index : Nat} {id : Text} {edge : Edge}
    (hedge : edge ∈ onwardEdges workType index id) : edge.Named := by
  unfold onwardEdges at hedge
  dsimp only at hedge
  intro route hroute
  split at hedge
  · rw [List.mem_singleton.mp hedge] at hroute
    cases hroute
  · next decision hdecision =>
      have hmem := List.mem_of_find?_eq_some hdecision
      split at hedge
      · rcases List.mem_append.mp hedge with hedge | hedge
        · obtain ⟨other, -, rfl⟩ := List.mem_map.mp hedge
          cases hroute
          exact .inl rfl
        · obtain rfl := List.mem_singleton.mp hedge
          cases hroute
          exact .inl rfl
      · obtain ⟨declared, hdeclared, rfl⟩ := List.mem_map.mp hedge
        cases hroute
        exact .inr (not_anyStep_of_kebab (hvalid.routes decision hmem declared hdeclared))

theorem everyEdge_named (hvalid : Valid workType) {edge : Edge} (hedge : edge ∈ everyEdge workType) :
    edge.Named := by
  have hwithout : edge.route = none → edge.Named := by
    intro hnone route hroute
    rw [hnone] at hroute
    cases hroute
  rcases List.mem_append.mp hedge with hedge | hedge
  · obtain ⟨entry, -, hedge⟩ := List.mem_flatMap.mp hedge
    rcases List.mem_append.mp hedge with hedge | hedge
    · exact onwardEdges_named hvalid hedge
    · obtain ⟨back, -, rfl⟩ := List.mem_map.mp hedge
      exact hwithout rfl
  · obtain ⟨loop, -, rfl⟩ := List.mem_map.mp hedge
    exact hwithout rfl

theorem routeEdges_rename (hvalid : Valid workType) (hinjective : Function.Injective naming)
    (h : Set.InjOn naming {id | id ∈ workType.order}) (hreads : ReadsRoutes naming workType) :
    routeEdges (workType.rename naming h) = (routeEdges workType).map (Edge.rename naming) := by
  change uniqueEdges (everyEdge (workType.rename naming h)) = (uniqueEdges (everyEdge workType)).map _
  rw [everyEdge_rename hvalid hinjective h hreads]
  exact uniqueEdges_map fun e he f hf =>
    key_rename hinjective (everyEdge_named hvalid he) (everyEdge_named hvalid hf)

theorem reviewKind_rename (phase : Phase) : reviewKind (phase.rename naming) = reviewKind phase := by
  unfold reviewKind Phase.rename
  cases phase.approval <;> rfl

theorem phaseResponsibilities_rename (hinjective : Function.Injective naming) (claims : Option PlannedClaims)
    (hasCodeStep : Bool) {phase : Phase}
    (hsource : ∀ source, phase.testEvidenceFrom = some source → (naming source ≠ [] ↔ source ≠ [])) :
    phaseResponsibilities (claims.map (PlannedClaims.rename naming)) hasCodeStep (phase.rename naming)
      = phaseResponsibilities claims hasCodeStep phase := by
  have hevidence : (phase.testEvidenceFrom.map naming).any (fun source => decide (source ≠ []))
      = phase.testEvidenceFrom.any fun source => decide (source ≠ []) := by
    rw [Option.any_map]
    cases heq : phase.testEvidenceFrom with
    | none => rfl
    | some source => exact decide_eq_decide.mpr (hsource source heq)
  have hmem : ∀ ids : List Text, naming phase.id ∈ ids.map naming ↔ phase.id ∈ ids :=
    fun ids => List.mem_map_of_injective hinjective
  unfold phaseResponsibilities
  rw [reviewKind_rename]
  simp only [Phase.rename, hevidence]
  cases claims with
  | none => rfl
  | some claims =>
      simp only [Option.map_some, Option.any_some, PlannedClaims.rename, hmem]
      rfl

theorem nodesOf_rename (hvalid : Valid workType) (hinjective : Function.Injective naming)
    (h : Set.InjOn naming {id | id ∈ workType.order}) (hrenamed : Valid (workType.rename naming h)) :
    nodesOf (workType.rename naming h) = (nodesOf workType).map (Node.rename naming) := by
  have hcode : (workType.rename naming h).phases.any Phase.codeDelivery = workType.phases.any Phase.codeDelivery := by
    change (workType.phases.map (Phase.rename naming)).any Phase.codeDelivery = _
    rw [List.any_map]
    rfl
  unfold nodesOf
  dsimp only
  rw [hcode]
  change (workType.phases.map (Phase.rename naming)).map _ = _
  rw [List.map_map, List.map_map]
  refine List.map_congr_left fun phase hphase => ?_
  change Node.mk (naming phase.id) (phaseResponsibilities (workType.plannedClaims.map _) _ (phase.rename naming))
    (reviewKind (phase.rename naming)) = _
  rw [reviewKind_rename, phaseResponsibilities_rename hinjective]
  · rfl
  · intro source hsource
    have hnew : (phase.rename naming).testEvidenceFrom = some (naming source) := by
      change phase.testEvidenceFrom.map naming = _
      rw [hsource]
      rfl
    exact iff_of_true (ne_nil_of_kebab (hrenamed.sources _ (List.mem_map_of_mem hphase) _ hnew))
      (ne_nil_of_kebab (hvalid.sources phase hphase source hsource))

/-- The graph of the renamed work type is the graph under other names. -/
theorem renames_graphOf (hvalid : Valid workType) (hinjective : Function.Injective naming)
    (h : Set.InjOn naming {id | id ∈ workType.order}) (hrenamed : Valid (workType.rename naming h))
    (hreads : ReadsRoutes naming workType) :
    Renames naming (graphOf workType) (graphOf (workType.rename naming h)) (Edge.rename naming) where
  injective := hinjective
  order := order_rename h
  gen id := by
    change (((nodesOf (workType.rename naming h)).find? (·.id = naming id)).map Node.mask).getD ∅
      = (((nodesOf workType).find? (·.id = id)).map Node.mask).getD ∅
    rw [nodesOf_rename hvalid hinjective h hrenamed, List.find?_map, Option.map_map]
    have hfind : (nodesOf workType).find? ((fun node => decide (node.id = naming id)) ∘ Node.rename naming)
        = (nodesOf workType).find? fun node => decide (node.id = id) := by
      congr 1
      funext node
      exact decide_eq_decide.mpr hinjective.eq_iff
    rw [hfind]
    rfl
  edges := routeEdges_rename hvalid hinjective h hreads
  source _ := rfl
  target _ := rfl
  omits _ := rfl
  decision _ := rfl
  route e htarget := by
    change e.route.map (renameRoute naming e.target) = e.route
    rw [htarget]
    cases e.route <;> rfl

/-- **What is found of the renamed graph is what is found of the graph**, under the
new names: the same responsibilities at each end, and findings of the same codes, and
so of the same severities. -/
theorem compile_rename (hvalid : Valid workType) (hinjective : Function.Injective naming)
    (h : Set.InjOn naming {id | id ∈ workType.order}) (hrenamed : Valid (workType.rename naming h))
    (hreads : ReadsRoutes naming workType) :
    (compileObligationGraph (workType.rename naming h)).endpoints
        = (compileObligationGraph workType).endpoints.map (Endpoint.rename naming) ∧
      (compileObligationGraph (workType.rename naming h)).findings
        = (compileObligationGraph workType).findings.map (Finding.rename naming) := by
  have hgraph := renames_graphOf hvalid hinjective h hrenamed hreads
  have hempty : (workType.rename naming h).phases = [] ↔ workType.phases = [] := List.map_eq_nil_iff
  unfold compileObligationGraph
  by_cases hphases : workType.phases = []
  · rw [if_pos (hempty.mpr hphases), if_pos hphases]
    exact ⟨rfl, rfl⟩
  rw [if_neg (mt hempty.mp hphases), if_neg hphases]
  have hends : ∀ e ∈ endEdges (graphOf workType), e.target = none := fun e he =>
    of_decide_eq_true (Bool.and_eq_true_iff.mp (List.mem_filter.mp he).2).1
  dsimp only
  rw [hgraph.endEdges, nodesOf_rename hvalid hinjective h hrenamed]
  constructor
  · rw [List.map_map, List.map_map]
    exact List.map_congr_left fun e he => hgraph.endpointOf (hends e he)
  · rw [List.map_append, List.map_append, Renames.nodeFindings _ hgraph.implementsUnplanned,
      Renames.nodeFindings _ hgraph.verifiesUnreviewed, List.flatMap_map, List.map_flatMap]
    congr 2
    exact List.flatMap_congr fun e he => hgraph.endpointFindings (hends e he)

end WorkType

end Evidence

end SingularityFlow
