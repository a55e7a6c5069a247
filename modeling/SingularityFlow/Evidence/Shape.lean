/-
# The shape of an obligation graph

The shape digest of a work type is that of its graph with steps named after their
places.  Graphs with the same shape are the same up to the names of their steps
(`exists_rename_of_shape`).

The other way round, other names leave the shape, and what is found, as they were
exactly where the routes are read as before (`readable_iff`): a step that is given
the name `end` is no longer told from the end, nor is one named `next` from the next
step.
-/
import SingularityFlow.Evidence.Renaming
import SingularityFlow.Lib.NumberText

namespace SingularityFlow

open Ecma Passes

namespace Evidence

/-! ## The shape -/

/-- `END`. -/
def endText : Text := js "$end"

/-- What a step is called in the shape (`rename`). -/
def shapeName (order : List Text) (id : Text) : Text :=
  if id = endText then endText
  else if id ∈ order then js "step-" ++ natText (order.idxOf id + 1) else id

def shapeRoute (order : List Text) (route : Text) : Text :=
  if anyStep <+: route then
    let rest := route.drop anyStep.length
    anyStep ++ shapeName order (if rest = js "end" then endText else rest)
  else route

structure ShapeEdge where
  source : Text
  target : Text
  kind : EdgeKind
  decision : Option Text
  route : Option Text
  omits : List Omission
deriving DecidableEq

def Edge.shape (order : List Text) (edge : Edge) : ShapeEdge where
  source := shapeName order edge.source
  target := shapeName order (edge.target.getD endText)
  kind := edge.kind
  decision := edge.decision
  route := edge.route.map (shapeRoute order)
  omits := edge.omits

def Node.shape (order : List Text) (node : Node) : Node := { node with id := shapeName order node.id }

/-- What the shape digest is the digest of. -/
structure Shape where
  nodes : List Node
  edges : List ShapeEdge
deriving DecidableEq

def shapeOf (workType : WorkType) : Shape where
  nodes := (nodesOf workType).map (Node.shape workType.order)
  edges := (routeEdges workType).map (Edge.shape workType.order)

/-- The shape digest; there is none where there are no steps. -/
def shapeDigest {D : Type} (digest : Shape → D) (workType : WorkType) : Option D :=
  if workType.phases = [] then none else some (digest (shapeOf workType))

/-! ## Names in the shape -/

theorem ne_endText_of_kebab {id : Text} (h : kebabCase id = true) : id ≠ endText := by
  rintro rfl
  cases h

theorem natText_injective : Function.Injective natText := fun n m h => by
  rw [← digitsValue_natText n, h, digitsValue_natText]

section Names

variable {order order' : List Text} {id id' : Text}

theorem shapeName_mem (hid : id ∈ order) (hkebab : kebabCase id = true) :
    shapeName order id = js "step-" ++ natText (order.idxOf id + 1) := by
  rw [shapeName, if_neg (ne_endText_of_kebab hkebab), if_pos hid]

theorem shapeName_endText : shapeName order endText = endText := if_pos rfl

theorem shapeName_ne_endText (hid : id ∈ order) (hkebab : kebabCase id = true) :
    shapeName order id ≠ endText := by
  rw [shapeName_mem hid hkebab]
  intro h
  have hfirst := congrArg List.head? h
  rw [List.head?_append] at hfirst
  cases hfirst

theorem shapeName_eq_iff (hid : id ∈ order) (hkebab : kebabCase id = true) (hid' : id' ∈ order')
    (hkebab' : kebabCase id' = true) :
    shapeName order id = shapeName order' id' ↔ order.idxOf id = order'.idxOf id' := by
  rw [shapeName_mem hid hkebab, shapeName_mem hid' hkebab', List.append_cancel_left_eq,
    natText_injective.eq_iff, Nat.add_right_cancel_iff]

theorem shapeName_rename {naming : Text → Text} (hinjective : Function.Injective naming) (hid : id ∈ order)
    (hkebab : kebabCase id = true) (hkebab' : kebabCase (naming id) = true) :
    shapeName (order.map naming) (naming id) = shapeName order id := by
  rw [shapeName_eq_iff (List.mem_map_of_mem hid) hkebab' hid hkebab, idxOf_rename hinjective]

theorem shapeRoute_named (order : List Text) (target : Option Text) :
    shapeRoute order (anyStep ++ target.getD (js "end"))
      = anyStep ++ if target.getD (js "end") = js "end" then endText else shapeName order (target.getD endText) := by
  rw [shapeRoute, if_pos (List.prefix_append _ _)]
  dsimp only
  rw [List.drop_left]
  split
  · rw [shapeName_endText]
  · cases target with
    | none => contradiction
    | some id => rfl

theorem shapeRoute_of_not {route : Text} (h : ¬ anyStep <+: route) : shapeRoute order route = route := if_neg h

end Names

section WorkType

variable {naming : Text → Text} {workType other : WorkType}

theorem idxOf_phase {index : Nat} {phase : Phase} (hphase : workType.phases[index]? = some phase) :
    workType.order.idxOf phase.id = index := by
  obtain ⟨hindex, rfl⟩ := List.getElem?_eq_some_iff.mp hphase
  have hlength : index < workType.order.length := by
    unfold WorkType.order
    rwa [List.length_map]
  have hget : workType.order[index] = workType.phases[index].id := List.getElem_map Phase.id
  rw [← hget]
  exact workType.distinctIds.idxOf_getElem index hlength

theorem mem_order {index : Nat} {phase : Phase} (hphase : workType.phases[index]? = some phase) :
    phase.id ∈ workType.order :=
  List.mem_map_of_mem (List.mem_of_getElem? hphase)

theorem mem_order_of_node {node : Node} (h : node ∈ nodesOf workType) : node.id ∈ workType.order := by
  rw [← nodesOf_id]
  exact List.mem_map_of_mem h

theorem named_of_mem (hvalid : Valid workType) {edge : Edge} (h : edge ∈ routeEdges workType) : edge.Named :=
  everyEdge_named hvalid (mem_uniqueEdges h)

/-! ## The shape under other names -/

/-- Which decisions for any step are read as they were: the name of the end is given to
no other step that they may go to, and taken from none. -/
def ReadsAnySteps (naming : Text → Text) (workType : WorkType) : Prop :=
  ∀ (index : Nat) (phase : Phase) (decision : Decision), workType.phases[index]? = some phase →
    workType.decisions.find? (·.after = phase.id) = some decision → decision.anyStep = true →
    ∀ target ∈ workType.order, target ≠ phase.id → (naming target = js "end" ↔ target = js "end")

/-- The routes of the work type are read under the other names as they were. -/
def Readable (naming : Text → Text) (workType : WorkType) : Prop :=
  ReadsRoutes naming workType ∧ ReadsAnySteps naming workType

/-- A route to a step is named after it only where a decision for any step has it. -/
theorem anyStep_of_named (hvalid : Valid workType) {edge : Edge} (h : edge ∈ routeEdges workType) {target : Text}
    (htarget : edge.target = some target) (hroute : edge.route = some (anyStep ++ target)) :
    ∃ (index : Nat) (phase : Phase) (decision : Decision), workType.phases[index]? = some phase ∧
      workType.decisions.find? (·.after = phase.id) = some decision ∧ decision.anyStep = true ∧
      target ∈ workType.order ∧ target ≠ phase.id := by
  rcases List.mem_append.mp (mem_uniqueEdges h) with h | h
  · obtain ⟨⟨phase, index⟩, hentry, h⟩ := List.mem_flatMap.mp h
    rcases List.mem_append.mp h with h | h
    · unfold onwardEdges at h
      dsimp only at h
      split at h
      · obtain rfl := List.mem_singleton.mp h
        cases hroute
      · next decision hdecision =>
          split at h
          · next hany =>
              rcases List.mem_append.mp h with h | h
              · obtain ⟨other, hother, rfl⟩ := List.mem_map.mp h
                cases htarget
                obtain ⟨hmem, hne⟩ := List.mem_filter.mp hother
                exact ⟨index, phase, decision, List.mem_zipIdx_iff_getElem?.mp hentry, hdecision, hany, hmem,
                  of_decide_eq_true hne⟩
              · obtain rfl := List.mem_singleton.mp h
                cases htarget
          · obtain ⟨route, hmem, rfl⟩ := List.mem_map.mp h
            have hid : route.id = anyStep ++ target := Option.some.inj hroute
            exact absurd (hid ▸ List.prefix_append anyStep target)
              (not_anyStep_of_kebab (hvalid.routes decision (List.mem_of_find?_eq_some hdecision) route hmem))
    · obtain ⟨back, -, rfl⟩ := List.mem_map.mp h
      cases hroute
  · obtain ⟨loop, -, rfl⟩ := List.mem_map.mp h
    cases hroute

/-- The shape of an edge whose route keeps its name in the shape. -/
theorem shape_rename (hvalid : Valid workType) (hinjective : Function.Injective naming)
    (hkebab : ∀ id ∈ workType.order, kebabCase (naming id) = true) {edge : Edge}
    (h : edge ∈ routeEdges workType) :
    (edge.rename naming).shape (workType.order.map naming) = edge.shape workType.order ↔
      ∀ target, edge.target = some target → edge.route = some (anyStep ++ target) →
        (naming target = js "end" ↔ target = js "end") := by
  obtain ⟨hsource, htarget⟩ := mem_routeEdges h
  have hname : ∀ id ∈ workType.order, shapeName (workType.order.map naming) (naming id)
      = shapeName workType.order id := fun id hid =>
    shapeName_rename hinjective hid (hvalid.ids id hid) (hkebab id hid)
  have htargets : shapeName (workType.order.map naming) ((edge.target.map naming).getD endText)
      = shapeName workType.order (edge.target.getD endText) := by
    cases heq : edge.target with
    | none => exact shapeName_endText.trans shapeName_endText.symm
    | some target => exact hname target (htarget target heq)
  have hroutes : (edge.rename naming).shape (workType.order.map naming) = edge.shape workType.order ↔
      (edge.route.map (renameRoute naming edge.target)).map (shapeRoute (workType.order.map naming))
        = edge.route.map (shapeRoute workType.order) := by
    refine ⟨congrArg ShapeEdge.route, fun hroutes => ?_⟩
    change ShapeEdge.mk (shapeName _ (naming edge.source)) (shapeName _ ((edge.target.map naming).getD endText))
      _ _ ((edge.route.map (renameRoute naming edge.target)).map _) _ = ShapeEdge.mk _ _ _ _ _ _
    rw [hname _ hsource, htargets, hroutes]
    rfl
  rw [hroutes]
  cases hroute : edge.route with
  | none => exact iff_of_true rfl fun _ _ h => by cases h
  | some route =>
      rw [Option.map_some, Option.map_some, Option.map_some, Option.some_inj]
      rcases named_of_mem hvalid h route hroute with rfl | hnot
      · cases heq : edge.target with
        | none =>
            refine iff_of_true ?_ fun _ h => by cases h
            exact (shapeRoute_named _ none).trans (shapeRoute_named _ none).symm
        | some target =>
            have hid := htarget target heq
            have hplace := shapeName_ne_endText hid (hvalid.ids target hid)
            have hrename : renameRoute naming (some target) (anyStep ++ target) = anyStep ++ naming target :=
              if_pos rfl
            have hold := shapeRoute_named workType.order (some target)
            have hnew := shapeRoute_named (workType.order.map naming) (some (naming target))
            simp only [Option.getD_some] at hold hnew ⊢
            rw [hrename, hold, hnew, hname target hid, List.append_cancel_left_eq]
            constructor
            · rintro heq other hother -
              cases hother
              split at heq <;> split at heq
              · next hend hend' => exact iff_of_true hend hend'
              · exact absurd heq.symm hplace
              · exact absurd heq hplace
              · next hend hend' => exact iff_of_false hend hend'
            · intro hend
              rw [if_congr (hend target rfl rfl) rfl rfl]
      · have hrename : renameRoute naming edge.target route = route := by
          cases edge.target with
          | none => rfl
          | some target =>
              refine if_neg fun heq => hnot ?_
              rw [heq]
              exact List.prefix_append anyStep target
        rw [hrename, shapeRoute_of_not hnot, shapeRoute_of_not hnot]
        refine iff_of_true rfl fun target _ heq => ?_
        cases heq
        exact absurd (List.prefix_append anyStep target) hnot

/-- An edge along a route of a decision comes from the step that it leaves. -/
theorem onward_of_route {edge : Edge} (h : edge ∈ routeEdges workType) (hkind : edge.kind = .route) :
    ∃ (index : Nat) (phase : Phase), workType.phases[index]? = some phase ∧ edge.source = phase.id ∧
      edge ∈ onwardEdges workType index phase.id := by
  rcases List.mem_append.mp (mem_uniqueEdges h) with h | h
  · obtain ⟨⟨phase, index⟩, hentry, h⟩ := List.mem_flatMap.mp h
    rcases List.mem_append.mp h with h | h
    · exact ⟨index, phase, List.mem_zipIdx_iff_getElem?.mp hentry, (onwardEdges_spec h).1, h⟩
    · obtain ⟨back, -, rfl⟩ := List.mem_map.mp h
      cases hkind
  · obtain ⟨loop, -, rfl⟩ := List.mem_map.mp h
    cases hkind

/-- The way on from a step is among the edges, up to what it omits. -/
theorem exists_routeEdge {index : Nat} {phase : Phase} (hphase : workType.phases[index]? = some phase)
    {edge : Edge} (h : edge ∈ onwardEdges workType index phase.id) :
    ∃ e ∈ routeEdges workType, e.key = edge.key :=
  key_uniqueEdges (List.mem_append_left _ (List.mem_flatMap.mpr
    ⟨(phase, index), List.mem_zipIdx_iff_getElem?.mpr hphase, List.mem_append_left _ h⟩))

/-- The edge of a route. -/
theorem mem_onwardEdges_of_route (index : Nat) {phase : Phase} {decision : Decision}
    (hdecision : workType.decisions.find? (·.after = phase.id) = some decision) (hany : decision.anyStep = false)
    {route : Route} (hroute : route ∈ decision.routes) :
    ∃ omits, Edge.mk phase.id (readTarget workType.order[index + 1]? route.target) .route (some decision.id)
      (some route.id) omits ∈ onwardEdges workType index phase.id := by
  unfold onwardEdges
  dsimp only
  rw [hdecision]
  dsimp only
  rw [if_neg (Bool.eq_false_iff.mp hany)]
  exact ⟨_, List.mem_map_of_mem hroute⟩

/-- An edge along a route of a decision for no any step. -/
theorem of_mem_onwardEdges {index : Nat} {id : Text} {decision : Decision}
    (hdecision : workType.decisions.find? (·.after = id) = some decision) (hany : decision.anyStep = false)
    {edge : Edge} (h : edge ∈ onwardEdges workType index id) :
    ∃ route ∈ decision.routes, edge.route = some route.id ∧
      edge.target = readTarget workType.order[index + 1]? route.target := by
  unfold onwardEdges at h
  dsimp only at h
  rw [hdecision] at h
  dsimp only at h
  rw [if_neg (Bool.eq_false_iff.mp hany)] at h
  obtain ⟨route, hroute, rfl⟩ := List.mem_map.mp h
  exact ⟨route, hroute, rfl, rfl⟩

theorem phase_rename {h : Set.InjOn naming {id | id ∈ workType.order}} {index : Nat} {phase : Phase}
    (hphase : workType.phases[index]? = some phase) :
    (workType.rename naming h).phases[index]? = some (phase.rename naming) := by
  change (workType.phases.map (Phase.rename naming))[index]? = _
  rw [List.getElem?_map, hphase]
  rfl

/-- With the same shape, a route leads under the other names where it led. -/
theorem readsRoutes_of_shape (hvalid : Valid workType) (hinjective : Function.Injective naming)
    (h : Set.InjOn naming {id | id ∈ workType.order}) (hrenamed : Valid (workType.rename naming h))
    (hshape : shapeOf (workType.rename naming h) = shapeOf workType) : ReadsRoutes naming workType := by
  intro index phase decision hphase hdecision hany route hroute hend hnext
  have hmem := List.mem_of_find?_eq_some hdecision
  have hid : route.target ∈ workType.order :=
    ((workType.known decision hmem route hroute).resolve_left hend).resolve_left hnext
  have hplain : ∀ order, shapeRoute order route.id = route.id := fun order =>
    shapeRoute_of_not (not_anyStep_of_kebab (hvalid.routes decision hmem route hroute))
  -- the edge of the route, and the one with its shape under the other names
  obtain ⟨omits, honward⟩ := mem_onwardEdges_of_route index hdecision hany hroute
  obtain ⟨e, he, hkey⟩ := exists_routeEdge hphase honward
  obtain ⟨hesource, hkey⟩ := Prod.mk.inj hkey
  obtain ⟨hetarget, hkey⟩ := Prod.mk.inj hkey
  obtain ⟨hekind, hkey⟩ := Prod.mk.inj hkey
  have heroute : e.route = some route.id := (Prod.mk.inj hkey).2
  have hleads : e.target = some route.target := by
    rw [hetarget, readTarget, if_neg hend, if_neg hnext]
  have hmember : e.shape workType.order ∈ (shapeOf (workType.rename naming h)).edges :=
    hshape ▸ List.mem_map_of_mem he
  obtain ⟨e', he', heq⟩ := List.mem_map.mp hmember
  have hkind' : e'.kind = .route := (congrArg ShapeEdge.kind heq).trans hekind
  obtain ⟨index', phase', hphase', hsource', honward'⟩ := onward_of_route he' hkind'
  -- it leaves the same step along the same route
  have hindex : index' = index := by
    have hnames := congrArg ShapeEdge.source heq
    change shapeName _ e'.source = shapeName _ e.source at hnames
    rw [hsource', hesource] at hnames
    have hplaces := (shapeName_eq_iff (mem_order hphase') (hrenamed.ids _ (mem_order hphase'))
      (mem_order hphase) (hvalid.ids _ (mem_order hphase))).mp hnames
    rwa [idxOf_phase hphase', idxOf_phase hphase] at hplaces
  subst hindex
  obtain rfl := Option.some.inj ((phase_rename (h := h) hphase).symm.trans hphase')
  have hdecision' := (find?_rename hinjective h phase.id).trans (congrArg (Option.map _) hdecision)
  obtain ⟨route', hroute', heroute', hetarget'⟩ := of_mem_onwardEdges hdecision' hany honward'
  obtain ⟨declared, hdeclared, rfl⟩ := List.mem_map.mp hroute'
  have hsame : declared = route := by
    refine List.inj_on_of_nodup_map (hvalid.routeIds decision hmem) hdeclared hroute ?_
    have hroutes := congrArg ShapeEdge.route heq
    change e'.route.map _ = e.route.map _ at hroutes
    rw [heroute', heroute, Option.map_some, Option.map_some, Option.some_inj, hplain] at hroutes
    exact (shapeRoute_of_not (not_anyStep_of_kebab (hvalid.routes decision hmem declared hdeclared))).symm.trans
      hroutes
  subst hsame
  have htargets := congrArg ShapeEdge.target heq
  change shapeName _ (e'.target.getD endText) = shapeName _ (e.target.getD endText) at htargets
  have hread : (declared.rename naming).target = naming declared.target := if_neg (not_or.mpr ⟨hend, hnext⟩)
  rw [hleads, hetarget', hread, order_rename, List.getElem?_map, Option.getD_some] at htargets
  have hplace := shapeName_ne_endText hid (hvalid.ids _ hid)
  refine ⟨fun hword => ?_, fun hword => ?_⟩
  · rw [readTarget, if_pos hword] at htargets
    exact hplace (htargets.symm.trans shapeName_endText)
  · rw [readTarget, if_neg (by rw [hword]; decide), if_pos hword] at htargets
    cases hbehind : workType.order[index' + 1]? with
    | none =>
        rw [hbehind] at htargets
        exact absurd (htargets.symm.trans shapeName_endText) hplace
    | some target =>
        rw [hbehind, Option.map_some, Option.getD_some] at htargets
        have htarget := List.mem_of_getElem? hbehind
        have hkebab' := hrenamed.ids (naming target) (order_rename h ▸ List.mem_map_of_mem htarget)
        rw [shapeName_rename hinjective htarget (hvalid.ids _ htarget) hkebab',
          shapeName_eq_iff htarget (hvalid.ids _ htarget) hid (hvalid.ids _ hid)] at htargets
        rw [(List.idxOf_inj htarget).mp htargets]

/-- **Other names keep the shape exactly where the routes are read as before.** -/
theorem shapeOf_rename_iff (hvalid : Valid workType) (hinjective : Function.Injective naming)
    (h : Set.InjOn naming {id | id ∈ workType.order}) (hrenamed : Valid (workType.rename naming h)) :
    shapeOf (workType.rename naming h) = shapeOf workType ↔ Readable naming workType := by
  have hkebab : ∀ id ∈ workType.order, kebabCase (naming id) = true := fun id hid =>
    hrenamed.ids (naming id) (order_rename h ▸ List.mem_map_of_mem hid)
  have hnodes : (nodesOf (workType.rename naming h)).map (Node.shape (workType.rename naming h).order)
      = (nodesOf workType).map (Node.shape workType.order) := by
    rw [nodesOf_rename hvalid hinjective h hrenamed, order_rename, List.map_map]
    refine List.map_congr_left fun node hnode => ?_
    have hid : node.id ∈ workType.order := mem_order_of_node hnode
    change Node.mk (shapeName _ (naming node.id)) _ _ = Node.mk _ _ _
    rw [shapeName_rename hinjective hid (hvalid.ids _ hid) (hkebab _ hid)]
    rfl
  have hedges : ReadsRoutes naming workType → (shapeOf (workType.rename naming h) = shapeOf workType ↔
      ∀ edge ∈ routeEdges workType, (edge.rename naming).shape (workType.order.map naming)
        = edge.shape workType.order) := by
    intro hreads
    unfold shapeOf
    rw [Shape.mk.injEq, hnodes, order_rename, routeEdges_rename hvalid hinjective h hreads, List.map_map]
    exact (and_iff_right rfl).trans List.map_inj_left
  constructor
  · intro hshape
    have hreads := readsRoutes_of_shape hvalid hinjective h hrenamed hshape
    refine ⟨hreads, fun index phase decision hphase hdecision hany target htarget hne => ?_⟩
    have honward : Edge.mk phase.id (some target) .route (some decision.id) (some (anyStep ++ target)) []
        ∈ onwardEdges workType index phase.id := by
      unfold onwardEdges
      dsimp only
      rw [hdecision]
      dsimp only
      rw [if_pos hany]
      exact List.mem_append_left _ (List.mem_map_of_mem (List.mem_filter.mpr ⟨htarget, decide_eq_true hne⟩))
    obtain ⟨e, he, hkey⟩ := exists_routeEdge hphase honward
    obtain ⟨-, hkey⟩ := Prod.mk.inj hkey
    obtain ⟨hetarget, hkey⟩ := Prod.mk.inj hkey
    obtain ⟨-, hkey⟩ := Prod.mk.inj hkey
    exact (shape_rename hvalid hinjective hkebab he).mp ((hedges hreads).mp hshape e he) target hetarget
      (Prod.mk.inj hkey).2
  · rintro ⟨hreads, hany⟩
    refine (hedges hreads).mpr fun e he => (shape_rename hvalid hinjective hkebab he).mpr ?_
    intro target htarget hroute
    obtain ⟨index, phase, decision, hphase, hdecision, hstep, hmem, hne⟩ :=
      anyStep_of_named hvalid he htarget hroute
    exact hany index phase decision hphase hdecision hstep target hmem hne

/-! ## Graphs with the same shape -/

/-- The step of another work type in the same place. -/
def inPlaceOf (workType other : WorkType) (id : Text) : Text :=
  other.order.getD (workType.order.idxOf id) id

/-- A graph is another one under other names: every step has one of its own. -/
structure SameGraph (naming : Text → Text) (workType other : WorkType) : Prop where
  oneToOne : Set.InjOn naming {id | id ∈ workType.order}
  nodes : nodesOf other = (nodesOf workType).map (Node.rename naming)
  edges : routeEdges other = (routeEdges workType).map (Edge.rename naming)

theorem eq_map_of_map_eq {α β γ : Type} {f : α → γ} {f' : β → γ} {g : α → β} :
    ∀ {l : List α} {l' : List β}, l'.map f' = l.map f →
      (∀ a ∈ l, ∀ b ∈ l', f' b = f a → b = g a) → l' = l.map g
  | [], [], _, _ => rfl
  | a :: l, b :: l', h, hall => by
      obtain ⟨hhead, htail⟩ := List.cons.inj h
      rw [List.map_cons, hall a List.mem_cons_self b List.mem_cons_self hhead]
      exact congrArg _ (eq_map_of_map_eq htail fun a ha b hb =>
        hall a (List.mem_cons_of_mem _ ha) b (List.mem_cons_of_mem _ hb))

theorem inPlaceOf_eq {id id' : Text} (hid' : id' ∈ other.order)
    (h : workType.order.idxOf id = other.order.idxOf id') : inPlaceOf workType other id = id' := by
  have hindex := List.idxOf_lt_length_of_mem hid'
  rw [inPlaceOf, h, List.getD_eq_getElem?_getD, List.getElem?_eq_getElem hindex, Option.getD_some]
  exact List.getElem_idxOf hindex

/-- An edge with the shape of an edge is that edge under the other names. -/
theorem edge_of_shape (hvalid : Valid workType) (hvalid' : Valid other) {e e' : Edge}
    (he : e ∈ routeEdges workType) (he' : e' ∈ routeEdges other)
    (h : e'.shape other.order = e.shape workType.order) : e' = e.rename (inPlaceOf workType other) := by
  obtain ⟨hsource, htarget⟩ := mem_routeEdges he
  obtain ⟨hsource', htarget'⟩ := mem_routeEdges he'
  have hplace : ∀ id ∈ workType.order, ∀ id' ∈ other.order,
      shapeName other.order id' = shapeName workType.order id → id' = inPlaceOf workType other id :=
    fun id hid id' hid' heq => (inPlaceOf_eq hid' ((shapeName_eq_iff hid' (hvalid'.ids id' hid') hid
      (hvalid.ids id hid)).mp heq).symm).symm
  have hsources : e'.source = inPlaceOf workType other e.source :=
    hplace _ hsource _ hsource' (congrArg ShapeEdge.source h)
  have htargets : e'.target = e.target.map (inPlaceOf workType other) := by
    have heq := congrArg ShapeEdge.target h
    change shapeName _ (e'.target.getD endText) = shapeName _ (e.target.getD endText) at heq
    cases hto : e.target with
    | none =>
        cases hto' : e'.target with
        | none => rfl
        | some target' =>
            rw [hto, hto'] at heq
            exact absurd (heq.trans shapeName_endText)
              (shapeName_ne_endText (htarget' _ hto') (hvalid'.ids _ (htarget' _ hto')))
    | some target =>
        cases hto' : e'.target with
        | none =>
            rw [hto, hto'] at heq
            exact absurd (heq.symm.trans shapeName_endText)
              (shapeName_ne_endText (htarget _ hto) (hvalid.ids _ (htarget _ hto)))
        | some target' =>
            rw [hto, hto'] at heq
            exact congrArg some (hplace _ (htarget _ hto) _ (htarget' _ hto') heq)
  have hroutes : e'.route = e.route.map (renameRoute (inPlaceOf workType other) e.target) := by
    have heq : e'.route.map (shapeRoute other.order) = e.route.map (shapeRoute workType.order) :=
      congrArg ShapeEdge.route h
    have hapart : ∀ {order order' : List Text} {target : Option Text} {route : Text}, ¬ anyStep <+: route →
        shapeRoute order route ≠ shapeRoute order' (anyStep ++ target.getD (js "end")) := by
      intro order order' target route hnot hroute
      rw [shapeRoute_of_not hnot, shapeRoute_named] at hroute
      exact hnot (hroute ▸ List.prefix_append anyStep _)
    cases hr : e.route with
    | none =>
        rw [hr, Option.map_none, Option.map_eq_none_iff] at heq
        exact heq
    | some route =>
        rw [hr, Option.map_some, Option.map_eq_some_iff] at heq
        obtain ⟨route', hr', heq⟩ := heq
        rw [hr']
        refine congrArg some ?_
        rcases named_of_mem hvalid he route hr with rfl | hnot <;>
          rcases named_of_mem hvalid' he' route' hr' with rfl | hnot'
        · rw [htargets]
          cases e.target with
          | none => rfl
          | some target => exact (if_pos rfl).symm
        · exact absurd heq (hapart hnot')
        · exact absurd heq.symm (hapart hnot)
        · rw [shapeRoute_of_not hnot, shapeRoute_of_not hnot'] at heq
          rw [heq]
          cases e.target with
          | none => rfl
          | some target =>
              refine (if_neg fun hnamed => hnot ?_).symm
              rw [hnamed]
              exact List.prefix_append anyStep target
  have hkind : e'.kind = e.kind := congrArg ShapeEdge.kind h
  have hdecision : e'.decision = e.decision := congrArg ShapeEdge.decision h
  have homits : e'.omits = e.omits := congrArg ShapeEdge.omits h
  cases e'
  cases hsources
  cases htargets
  cases hroutes
  cases hkind
  cases hdecision
  cases homits
  rfl

/-- **Graphs with the same shape are the same up to the names of their steps.** -/
theorem sameGraph_of_shape (hvalid : Valid workType) (hvalid' : Valid other)
    (h : shapeOf other = shapeOf workType) : SameGraph (inPlaceOf workType other) workType other := by
  obtain ⟨hnodes, hedges⟩ := Shape.mk.inj h
  have hlength : other.order.length = workType.order.length := by
    have := congrArg List.length hnodes
    rwa [List.length_map, List.length_map, nodesOf, nodesOf, List.length_map, List.length_map,
      ← List.length_map Phase.id, ← List.length_map Phase.id] at this
  refine ⟨fun a ha b hb heq => ?_, eq_map_of_map_eq hnodes fun node hnode node' hnode' heq => ?_,
    eq_map_of_map_eq hedges fun e he e' he' heq => edge_of_shape hvalid hvalid' he he' heq⟩
  · have hbound : ∀ id ∈ workType.order, workType.order.idxOf id < other.order.length := fun id hid =>
      hlength ▸ List.idxOf_lt_length_of_mem hid
    unfold inPlaceOf at heq
    rw [List.getD_eq_getElem?_getD, List.getD_eq_getElem?_getD, List.getElem?_eq_getElem (hbound a ha),
      List.getElem?_eq_getElem (hbound b hb), Option.getD_some, Option.getD_some] at heq
    exact (List.idxOf_inj ha).mp ((other.distinctIds.getElem_inj_iff).mp heq)
  · have hid := mem_order_of_node hnode
    have hid' := mem_order_of_node hnode'
    have hplace := (shapeName_eq_iff hid' (hvalid'.ids _ hid') hid (hvalid.ids _ hid)).mp
      (congrArg Node.id heq)
    obtain ⟨-, hresponsibilities, hreview⟩ := (Node.mk.injEq ..).mp heq
    have hname := inPlaceOf_eq hid' hplace.symm
    cases node'
    cases hresponsibilities
    cases hreview
    exact (Node.mk.injEq ..).mpr ⟨hname.symm, rfl, rfl⟩

/-! ## Renamings of what is mentioned -/

/-- The names of steps that a work type mentions; its routes lead to steps. -/
def WorkType.names (workType : WorkType) : List Text :=
  workType.order
    ++ workType.phases.flatMap (fun phase =>
      phase.testEvidenceFrom.toList ++ (phase.approval.map Approval.rejectTo).getD [])
    ++ workType.decisions.map Decision.after
    ++ workType.reworkLoops.flatMap (fun loop => [loop.1, loop.2])
    ++ (workType.plannedClaims.map fun claims => claims.clausePhases ++ claims.owners).getD []

theorem order_subset_names {id : Text} (h : id ∈ workType.order) : id ∈ workType.names := by
  unfold WorkType.names
  exact List.mem_append_left _ (List.mem_append_left _ (List.mem_append_left _ (List.mem_append_left _ h)))

/-- A renaming is known by what it does with the names that are mentioned. -/
theorem rename_congr {naming naming' : Text → Text} (hsame : ∀ id ∈ workType.names, naming id = naming' id)
    (h : Set.InjOn naming {id | id ∈ workType.order}) (h' : Set.InjOn naming' {id | id ∈ workType.order}) :
    workType.rename naming h = workType.rename naming' h' := by
  have horder : ∀ id ∈ workType.order, naming id = naming' id := fun id hid => hsame id (order_subset_names hid)
  unfold WorkType.rename
  rw [WorkType.mk.injEq]
  have hphases : ∀ phase ∈ workType.phases, ∀ id ∈ phase.testEvidenceFrom.toList
      ++ (phase.approval.map Approval.rejectTo).getD [], naming id = naming' id := fun phase hphase id hid =>
    hsame id (List.mem_append_left _ (List.mem_append_left _ (List.mem_append_left _ (List.mem_append_right _
      (List.mem_flatMap.mpr ⟨phase, hphase, hid⟩)))))
  have hdecisions : ∀ decision ∈ workType.decisions, naming decision.after = naming' decision.after :=
    fun decision hdecision => hsame _ (List.mem_append_left _ (List.mem_append_left _
      (List.mem_append_right _ (List.mem_map_of_mem hdecision))))
  have hloops : ∀ loop ∈ workType.reworkLoops, ∀ id ∈ [loop.1, loop.2], naming id = naming' id :=
    fun loop hloop id hid => hsame id (List.mem_append_left _ (List.mem_append_right _
      (List.mem_flatMap.mpr ⟨loop, hloop, hid⟩)))
  have hclaims : ∀ claims, workType.plannedClaims = some claims →
      ∀ id ∈ claims.clausePhases ++ claims.owners, naming id = naming' id := fun claims heq id hid =>
    hsame id (List.mem_append_right _ (by rw [heq]; exact hid))
  refine ⟨List.map_congr_left fun phase hphase => ?_, List.map_congr_left fun decision hdecision => ?_,
    List.map_congr_left fun loop hloop => ?_, rfl, ?_⟩
  · have hid := horder phase.id (List.mem_map_of_mem hphase)
    have hmentioned := hphases phase hphase
    unfold Phase.rename
    rw [hid]
    congr 1
    · cases hsource : phase.testEvidenceFrom with
      | none => rfl
      | some source =>
          refine congrArg some (hmentioned source (List.mem_append_left _ ?_))
          rw [hsource]
          exact List.mem_singleton_self source
    · cases happroval : phase.approval with
      | none => rfl
      | some approval =>
          refine congrArg some ?_
          unfold Approval.rename
          rw [List.map_congr_left fun back hback => hmentioned back (List.mem_append_right _ ?_)]
          rw [happroval]
          exact hback
  · unfold Decision.rename
    rw [hdecisions decision hdecision]
    congr 1
    refine List.map_congr_left fun route hroute => ?_
    unfold Route.rename
    congr 1
    unfold renameTarget
    split
    · rfl
    · next hstep =>
        exact horder _ (((workType.known decision hdecision route hroute).resolve_left
          fun h => hstep (.inl h)).resolve_left fun h => hstep (.inr h))
  · rw [hloops loop hloop loop.1 List.mem_cons_self,
      hloops loop hloop loop.2 (List.mem_cons_of_mem _ List.mem_cons_self)]
  · cases heq : workType.plannedClaims with
    | none => rfl
    | some claims =>
        refine congrArg some ?_
        unfold PlannedClaims.rename
        rw [List.map_congr_left fun id hid => hclaims claims heq id (List.mem_append_left _ hid),
          List.map_congr_left fun id hid => hclaims claims heq id (List.mem_append_right _ hid)]

/-- A renaming that is one-to-one on some names goes on to all. -/
theorem exists_injective (naming : Text → Text) (names : List Text) (h : Set.InjOn naming {id | id ∈ names}) :
    ∃ naming', Function.Injective naming' ∧ ∀ id ∈ names, naming id = naming' id := by
  -- other names are put behind more units than any of the new ones has
  let long := (names.map fun id => (naming id).length).sum + 1
  have hlong : ∀ id ∈ names, (naming id).length < long := fun id hid =>
    Nat.lt_succ_of_le (List.le_sum_of_mem (List.mem_map_of_mem (f := fun id => (naming id).length) hid))
  let naming' := fun id : Text => if id ∈ names then naming id else List.replicate long 0 ++ id
  have hother : ∀ a ∈ names, ∀ b, naming a ≠ List.replicate long 0 ++ b := by
    intro a ha b heq
    have := hlong a ha
    rw [heq, List.length_append, List.length_replicate] at this
    omega
  refine ⟨naming', fun a b heq => ?_, fun id hid => (if_pos hid).symm⟩
  change (if a ∈ names then naming a else _) = if b ∈ names then naming b else _ at heq
  split at heq <;> split at heq
  · next ha hb => exact h ha hb heq
  · next ha hb => exact absurd heq (hother a ha b)
  · next ha hb => exact absurd heq.symm (hother b hb a)
  · exact List.append_cancel_left heq

/-- What other names leave as it is: the shape digest, what is guaranteed, missing and
omitted at each end, and the findings, under the new names. -/
def Preserved {D : Type} (digest : Shape → D) (naming : Text → Text) (workType : WorkType)
    (h : Set.InjOn naming {id | id ∈ workType.order}) : Prop :=
  shapeDigest digest (workType.rename naming h) = shapeDigest digest workType ∧
    (compileObligationGraph (workType.rename naming h)).endpoints
      = (compileObligationGraph workType).endpoints.map (Endpoint.rename naming) ∧
    (compileObligationGraph (workType.rename naming h)).findings
      = (compileObligationGraph workType).findings.map (Finding.rename naming)

theorem preserved_iff {D : Type} {digest : Shape → D} (hdigest : Function.Injective digest)
    (hvalid : Valid workType) (hinjective : Function.Injective naming)
    (h : Set.InjOn naming {id | id ∈ workType.order}) (hrenamed : Valid (workType.rename naming h)) :
    Preserved digest naming workType h ↔ Readable naming workType := by
  have hempty : (workType.rename naming h).phases = [] ↔ workType.phases = [] := List.map_eq_nil_iff
  constructor
  · rintro ⟨hshape, -, -⟩
    by_cases hphases : workType.phases = []
    · constructor <;>
        · intro index phase _ hphase
          rw [hphases] at hphase
          cases hphase
    · rw [shapeDigest, shapeDigest, if_neg (mt hempty.mp hphases), if_neg hphases, Option.some_inj] at hshape
      exact (shapeOf_rename_iff hvalid hinjective h hrenamed).mp (hdigest hshape)
  · intro hreadable
    refine ⟨?_, compile_rename hvalid hinjective h hrenamed hreadable.1⟩
    rw [shapeDigest, shapeDigest, (shapeOf_rename_iff hvalid hinjective h hrenamed).mpr hreadable]
    exact if_congr hempty rfl rfl

theorem readable_congr {naming' : Text → Text} (hsame : ∀ id ∈ workType.order, naming id = naming' id) :
    Readable naming workType ↔ Readable naming' workType := by
  refine and_congr ?_ ?_
  · refine forall₅_congr fun index phase decision hphase hdecision => ?_
    refine forall₃_congr fun hany route hroute => forall₂_congr fun hend hnext => ?_
    have hid := ((workType.known decision (List.mem_of_find?_eq_some hdecision) route hroute).resolve_left
      hend).resolve_left hnext
    rw [hsame _ hid]
  · refine forall₅_congr fun index phase decision hphase hdecision => ?_
    refine forall₃_congr fun hany target htarget => ?_
    rw [hsame _ htarget]

theorem source_of_endEdge {edge : Edge} (h : edge ∈ endEdges (graphOf workType)) : edge.source ∈ workType.order :=
  (mem_routeEdges (List.mem_filter.mp h).1).1

theorem source_of_endpoint {endpoint : Endpoint} (h : endpoint ∈ (compileObligationGraph workType).endpoints) :
    endpoint.source ∈ workType.order := by
  unfold compileObligationGraph at h
  split at h
  · cases h
  · obtain ⟨edge, hedge, rfl⟩ := List.mem_map.mp h
    exact source_of_endEdge hedge

theorem phase_of_endpointFinding {graph : Graph} {edge : Edge} {finding : Finding}
    (h : finding ∈ endpointFindings graph edge) : finding.phase = edge.source := by
  unfold endpointFindings at h
  dsimp only at h
  have hone : ∀ {c : Prop} [Decidable c] {code : FindingCode},
      finding ∈ (if c then [Finding.mk code edge.source edge.decision edge.route] else []) →
        finding.phase = edge.source := by
    intro c _ code h
    split at h
    · rw [List.mem_singleton.mp h]
    · cases h
  rcases List.mem_append.mp h with h | h
  · exact (List.mem_append.mp h).elim hone hone
  · exact hone h

theorem phase_of_finding {finding : Finding} (h : finding ∈ (compileObligationGraph workType).findings) :
    finding.phase ∈ workType.order := by
  have hnode : ∀ {code : FindingCode} {found : Node → Bool},
      finding ∈ nodeFindings (nodesOf workType) code found → finding.phase ∈ workType.order := by
    intro code found h
    obtain ⟨node, hnode, rfl⟩ := List.mem_map.mp h
    exact mem_order_of_node (List.mem_filter.mp hnode).1
  unfold compileObligationGraph at h
  split at h
  · cases h
  · rcases List.mem_append.mp h with h | h
    · rcases List.mem_append.mp h with h | h
      · obtain ⟨edge, hedge, h⟩ := List.mem_flatMap.mp h
        exact phase_of_endpointFinding h ▸ source_of_endEdge hedge
      · exact hnode h
    · exact hnode h

/-- **Other names change nothing that matters exactly where the routes are read as
before**, and graphs with the same shape differ in their names only.  A route to a step
that is given the name `end` leads to the end; one to a step that is given the name
`next`, to the next step.  In the shape, a decision for any step that may go to a step
called `end` is as one that goes to the end. -/
theorem renaming_iff {D : Type} (digest : Shape → D) (hdigest : Function.Injective digest)
    (workType : WorkType) (hvalid : Valid workType) (naming : Text → Text)
    (h : Set.InjOn naming {id | id ∈ workType.names})
    (hrenamed : Valid (workType.rename naming (h.mono fun _ => order_subset_names))) :
    (Preserved digest naming workType (h.mono fun _ => order_subset_names) ↔ Readable naming workType) ∧
      ∀ other, Valid other → shapeOf other = shapeOf workType → ∃ naming', SameGraph naming' workType other := by
  refine ⟨?_, fun other hother hshape => ⟨_, sameGraph_of_shape hvalid hother hshape⟩⟩
  obtain ⟨naming', hinjective, hsame⟩ := exists_injective naming workType.names h
  have horder : ∀ id ∈ workType.order, naming id = naming' id := fun id hid => hsame id (order_subset_names hid)
  have hrename := rename_congr hsame (h.mono fun _ => order_subset_names) hinjective.injOn
  rw [readable_congr horder, ← preserved_iff hdigest hvalid hinjective hinjective.injOn (hrename ▸ hrenamed)]
  have hendpoints : (compileObligationGraph workType).endpoints.map (Endpoint.rename naming)
      = (compileObligationGraph workType).endpoints.map (Endpoint.rename naming') :=
    List.map_congr_left fun endpoint hendpoint => by
      unfold Endpoint.rename
      rw [horder _ (source_of_endpoint hendpoint)]
  have hfindings : (compileObligationGraph workType).findings.map (Finding.rename naming)
      = (compileObligationGraph workType).findings.map (Finding.rename naming') :=
    List.map_congr_left fun finding hfinding => by
      unfold Finding.rename
      rw [horder _ (phase_of_finding hfinding)]
  unfold Preserved
  rw [hrename, hendpoints, hfindings]

/-! ## A step with the name of the end -/

/-- A decision after the first of two steps leads to the other. -/
def handoff : WorkType where
  phases := [⟨js "draft", none, false, false, false, none, none⟩, ⟨js "done", none, false, false, false, none, none⟩]
  decisions := [⟨js "pick", js "draft", false, [⟨js "go", js "done", none⟩]⟩]
  reworkLoops := []
  omits := []
  plannedClaims := none
  distinctIds := by decide +kernel
  routed := by decide +kernel
  known := by decide +kernel

def calling (name : Text) (id : Text) : Text := if id = js "done" then name else id

theorem handoff_valid : Valid handoff where
  ids := by decide +kernel
  sources := by
    intro phase hphase source hsource
    have hnone : ∀ phase ∈ handoff.phases, phase.testEvidenceFrom = none := by decide +kernel
    rw [hnone phase hphase] at hsource
    cases hsource
  routes := by decide +kernel
  routeIds := by decide +kernel

theorem calling_injOn {name : Text} (hname : name ≠ js "draft") :
    Set.InjOn (calling name) {id | id ∈ handoff.names} := by
  have hnames : ∀ id ∈ handoff.names, id = js "draft" ∨ id = js "done" := by decide +kernel
  have hdraft : calling name (js "draft") = js "draft" := if_neg (by decide)
  have hdone : calling name (js "done") = name := if_pos rfl
  intro a ha b hb heq
  rcases hnames a ha with rfl | rfl <;> rcases hnames b hb with rfl | rfl
  · rfl
  · exact absurd (hdone.symm.trans (heq.symm.trans hdraft)) hname
  · exact absurd (hdone.symm.trans (heq.trans hdraft)) hname
  · rfl

theorem handoff_rename_valid {name : Text} (hname : kebabCase name = true)
    (h : Set.InjOn (calling name) {id | id ∈ handoff.order}) : Valid (handoff.rename (calling name) h) where
  ids := by
    rw [order_rename]
    intro id hid
    obtain ⟨old, hold, rfl⟩ := List.mem_map.mp hid
    unfold calling
    split
    · exact hname
    · exact handoff_valid.ids old hold
  sources phase hphase source hsource := by
    obtain ⟨old, hold, rfl⟩ := List.mem_map.mp hphase
    have hnone : ∀ phase ∈ handoff.phases, phase.testEvidenceFrom = none := by decide +kernel
    change old.testEvidenceFrom.map _ = _ at hsource
    rw [hnone old hold] at hsource
    cases hsource
  routes decision hdecision route hroute := by
    obtain ⟨old, hold, rfl⟩ := List.mem_map.mp hdecision
    obtain ⟨declared, hdeclared, rfl⟩ := List.mem_map.mp hroute
    exact handoff_valid.routes old hold declared hdeclared
  routeIds decision hdecision := by
    obtain ⟨old, hold, rfl⟩ := List.mem_map.mp hdecision
    change ((old.routes.map (Route.rename _)).map Route.id).Nodup
    rw [List.map_map]
    exact handoff_valid.routeIds old hold

theorem handoff_readable {name : Text} (hend : name ≠ js "end") (hnext : name ≠ js "next") :
    Readable (calling name) handoff := by
  constructor
  · intro index phase decision hphase hdecision hany route hroute _ _
    obtain rfl := List.mem_singleton.mp (List.mem_of_find?_eq_some hdecision)
    obtain rfl := List.mem_singleton.mp hroute
    rw [show calling name (js "done") = name from if_pos rfl]
    exact ⟨hend, fun h => absurd h hnext⟩
  · intro index phase decision hphase hdecision hany
    obtain rfl := List.mem_singleton.mp (List.mem_of_find?_eq_some hdecision)
    cases hany

theorem renaming_iff_handoff :
    Preserved id (calling (js "ship")) handoff ((calling_injOn (by decide)).mono fun _ => order_subset_names) :=
  (renaming_iff id Function.injective_id handoff handoff_valid (calling (js "ship"))
    (calling_injOn (by decide)) (handoff_rename_valid (by decide +kernel) _)).1.mpr
      (handoff_readable (by decide) (by decide))

/-- The second step is called `end`, and the Story ends with the first. -/
theorem end_not_preserved :
    Valid handoff ∧
      Valid (handoff.rename (calling (js "end")) ((calling_injOn (by decide)).mono fun _ => order_subset_names)) ∧
      ¬ Preserved id (calling (js "end")) handoff
        ((calling_injOn (by decide)).mono fun _ => order_subset_names) := by
  refine ⟨handoff_valid, handoff_rename_valid (by decide +kernel) _, fun ⟨_, hendpoints, _⟩ => ?_⟩
  have hsources := congrArg (List.map Endpoint.source) hendpoints
  revert hsources
  decide +kernel

end WorkType

end Evidence

end SingularityFlow
