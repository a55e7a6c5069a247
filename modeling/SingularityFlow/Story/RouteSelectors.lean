/-
# Values that take a route

`routeSelectors` looks, for every route of a decision, for recorded values that make
`chooseRoute` choose it.  It tries the choices of a choice input, and of a number
input the constants of its tests, what lies one above and below them, the bounds and
zero; it stops after 4096 combinations.

A selector that is found is right.  That none is found says only that no combination
that was tried takes the route: `routeSelectors_exact_iff` states for which decisions
this is enough.  It is not where a rule holds strictly between two constants and no
sample lies there, as between 1 and 1.5, nor where the combinations that take the
route come later than the first 4096.
-/
import SingularityFlow.Lib.NumberSum
import SingularityFlow.Story.DecisionInputs

namespace SingularityFlow

open Ecma Approval

namespace Story

/-! ## Candidate values -/

/-- The numbers that a test compares with. -/
def Test.constants : Test → List Number
  | .equals x | .notEquals x => [x]
  | .bounds atLeast atMost above below =>
      atLeast.toList ++ atMost.toList ++ above.toList ++ below.toList
  | .isIn _ | .notIn _ => []

/-- The tests of an input, in the rules of the routes and in the goal. -/
def testsOf (decision : Decision) (name : Text) : List Test :=
  (decision.routes.filterMap fun route => route.when.bind (mapGet · name))
    ++ (decision.goal.bind (mapGet · name)).toList

/-- The numbers around which a number input is sampled. -/
def sampledNumbers (decision : Decision) (name : Text) (minimum maximum : Option Number) :
    List Number :=
  let constants := ((testsOf decision name).flatMap Test.constants).filter (·.isFinite)
  distinct ((.ofNat 0 :: constants.flatMap (fun x => [plus x (-1), x, plus x 1])
    ++ (minimum.toList ++ maximum.toList).filter (·.isFinite)).map Number.unsignedZero)

/-- Candidate values for one input: every choice, or the edges of every numeric test. -/
def candidateValues (input : Input) (decision : Decision) : List RecordedValue :=
  match input.type with
  | .choice values => values.map .choice
  | .number minimum maximum =>
      (((sampledNumbers decision input.name minimum maximum).filter fun x =>
          minimum.all (atLeast x) && maximum.all (atLeast · x)).insertionSort
        fun x y => x.units ≤ y.units).map .number

/-! ## The search -/

def maxValueCombinations : Nat := 4096

/-- The variables of the search. -/
structure SelectorSearch where
  selectors : List (Text × Option RecordedValues)
  remaining : Nat
  explored : Nat

/-- `!remaining || explored >= MAX_VALUE_COMBINATIONS`. -/
def SelectorSearch.stopped (search : SelectorSearch) : Bool :=
  search.remaining = 0 || maxValueCombinations ≤ search.explored

/-- All inputs have a value. -/
def SelectorSearch.explore (decision : Decision) (search : SelectorSearch)
    (values : RecordedValues) : SelectorSearch :=
  let next := { search with explored := search.explored + 1 }
  match chooseRoute decision values with
  | none => next
  | some route =>
      match mapGet search.selectors route.id with
      | some none =>
          { next with
            selectors := mapSet search.selectors route.id (some values)
            remaining := search.remaining - 1 }
      | _ => next

/-- `assign`.  A call after the search has stopped does nothing, so that the loop
need not be left. -/
def assign (decision : Decision) :
    List Input → RecordedValues → SelectorSearch → SelectorSearch
  | [], values, search => if search.stopped then search else search.explore decision values
  | input :: rest, values, search =>
      if search.stopped then search
      else (candidateValues input decision).foldl
        (fun search value => assign decision rest (values ++ [(input.name, value)]) search) search

/-- How a route can be taken: by a person, or with recorded values. -/
inductive Selector where
  | person
  | recorded (values : RecordedValues)

/-- For each route, recorded input values that make the engine choose it, or null when
none do. -/
def routeSelectors (decision : Decision) : List (Text × Option Selector) :=
  if decision.kind = .ask then decision.routes.map fun route => (route.id, some .person)
  else
    let search := assign decision decision.inputs []
      ⟨decision.routes.map fun route => (route.id, none), decision.routes.length, 0⟩
    search.selectors.map fun entry => (entry.1, entry.2.map .recorded)

/-- `selectors.get(route.id)`. -/
def selectorOf (decision : Decision) (route : Route) : Option Selector :=
  (mapGet (routeSelectors decision) route.id).join

/-- A finding of `simulateWorkflowRoutes`. -/
structure RouteFinding where
  code : Text
  decision : Text
  message : Text
deriving DecidableEq

/-- What `simulateWorkflowRoutes` reports of the routes of a decision. -/
def unreachableFinding (decision : Decision) (route : Route) : RouteFinding :=
  ⟨js "WORKFLOW_ROUTE_UNREACHABLE", decision.id, js "Decision '" ++ decision.id ++ js "' route '"
    ++ route.id ++ js "' can never be chosen: an earlier route's rule always holds first."⟩

def unreachableFindings (decision : Decision) : List RouteFinding :=
  (decision.routes.filter fun route => (selectorOf decision route).isNone).map
    (unreachableFinding decision)

/-! ## The combinations -/

/-- The combinations of candidate values, in the order of the search. -/
def combinationsFrom (decision : Decision) : List Input → RecordedValues → List RecordedValues
  | [], values => [values]
  | input :: rest, values =>
      (candidateValues input decision).flatMap fun value =>
        combinationsFrom decision rest (values ++ [(input.name, value)])

def combinations (decision : Decision) : List RecordedValues :=
  combinationsFrom decision decision.inputs []

/-- The combinations that are tried, unless all routes are found before. -/
def sampled (decision : Decision) : List RecordedValues :=
  (combinations decision).take maxValueCombinations

/-- The engine chooses the route. -/
def chooses (decision : Decision) (route : Route) (values : RecordedValues) : Bool :=
  (chooseRoute decision values).any (·.id = route.id)

/-! ## The search is a loop over the combinations -/

/-- One combination, unless the search has stopped. -/
def SelectorSearch.turn (decision : Decision) (search : SelectorSearch) (values : RecordedValues) :
    SelectorSearch :=
  if search.stopped then search else search.explore decision values

variable {decision : Decision}

theorem foldl_turn_stopped {search : SelectorSearch} (h : search.stopped = true)
    (l : List RecordedValues) : l.foldl (SelectorSearch.turn decision) search = search := by
  induction l with
  | nil => rfl
  | cons values l ih => rw [List.foldl_cons, SelectorSearch.turn, if_pos h, ih]

theorem assign_eq (inputs : List Input) :
    ∀ (values : RecordedValues) (search : SelectorSearch), assign decision inputs values search
      = (combinationsFrom decision inputs values).foldl (SelectorSearch.turn decision) search := by
  induction inputs with
  | nil => exact fun values search => rfl
  | cons input rest ih =>
      intro values search
      rw [assign, combinationsFrom]
      by_cases hstopped : search.stopped = true
      · rw [if_pos hstopped, foldl_turn_stopped hstopped]
      · simp only [if_neg hstopped, ih, List.foldl_flatMap]

/-! ## What the search finds -/

/-- After some combinations each route has the first of them that takes it. -/
structure Found (decision : Decision) (tried : List RecordedValues) (search : SelectorSearch) :
    Prop where
  selectors : ∀ route ∈ decision.routes,
    mapGet search.selectors route.id = some (tried.find? (chooses decision route))
  remaining : search.remaining
    = decision.routes.countP fun route => (tried.find? (chooses decision route)).isNone
  explored : search.explored = tried.length

theorem chooses_iff (hids : (decision.routes.map (·.id)).Nodup) {route : Route}
    (hroute : route ∈ decision.routes) {values : RecordedValues} :
    chooses decision route values = true ↔ chooseRoute decision values = some route := by
  unfold chooses
  cases hchoose : chooseRoute decision values with
  | none => simp
  | some chosen =>
      have hmem : chosen ∈ decision.routes := List.mem_of_find?_eq_some hchoose
      rw [Option.any_some, decide_eq_true_eq, Option.some.injEq]
      exact ⟨fun h => List.inj_on_of_nodup_map hids hmem hroute h, fun h => h ▸ rfl⟩

theorem found_start (hids : (decision.routes.map (·.id)).Nodup) : Found decision []
    ⟨decision.routes.map fun route => (route.id, none), decision.routes.length, 0⟩ where
  selectors route hroute := by
    refine mapGet_of_mem ?_ (List.mem_map.mpr ⟨route, hroute, rfl⟩)
    rwa [List.map_map]
  remaining := by simp
  explored := rfl

/-- A count falls by one where one element leaves. -/
theorem countP_of_iff {α : Type} {p q : α → Bool} {a : α} {l : List α} (hnodup : l.Nodup)
    (ha : a ∈ l) (hp : p a = true) (hq : q a = false) (h : ∀ b ∈ l, b ≠ a → q b = p b) :
    l.countP q = l.countP p - 1 := by
  obtain ⟨front, back, rfl⟩ := List.append_of_mem ha
  have hnot : a ∉ front ++ back := (List.nodup_middle.mp hnodup).notMem
  have hsame : ∀ b ∈ front ++ back, q b = p b := fun b hb =>
    h b (by simp only [List.mem_append, List.mem_cons] at hb ⊢; tauto) fun heq => hnot (heq ▸ hb)
  have hfront : front.countP q = front.countP p :=
    List.countP_congr fun b hb => by rw [hsame b (List.mem_append_left _ hb)]
  have hback : back.countP q = back.countP p :=
    List.countP_congr fun b hb => by rw [hsame b (List.mem_append_right _ hb)]
  simp only [List.countP_append, List.countP_cons, hp, hq, hfront, hback, if_true,
    Bool.false_eq_true, if_false]
  omega

theorem Found.explore (hids : (decision.routes.map (·.id)).Nodup) {tried : List RecordedValues}
    {search : SelectorSearch} (h : Found decision tried search) (values : RecordedValues) :
    Found decision (tried ++ [values]) (search.explore decision values) := by
  have hfind : ∀ route, (tried ++ [values]).find? (chooses decision route)
      = (tried.find? (chooses decision route)).or
        (if chooses decision route values then some values else none) := by
    intro route
    rw [List.find?_append, List.find?_singleton]
  have hexplored : search.explored + 1 = (tried ++ [values]).length := by
    rw [h.explored, List.length_append, List.length_singleton]
  -- nothing is set for a route that has a selector, or that is not chosen
  have hkeep : ∀ route, chooses decision route values = false
      ∨ (tried.find? (chooses decision route)).isSome = true →
      (tried ++ [values]).find? (chooses decision route)
        = tried.find? (chooses decision route) := by
    rintro route (hnot | hsome)
    · rw [hfind, hnot]
      exact Option.or_none
    · obtain ⟨earlier, hearlier⟩ := Option.isSome_iff_exists.mp hsome
      rw [hfind, hearlier]
      rfl
  unfold SelectorSearch.explore
  cases hchoose : chooseRoute decision values with
  | none =>
      have hall : ∀ route, (tried ++ [values]).find? (chooses decision route)
          = tried.find? (chooses decision route) := fun route =>
        hkeep route (.inl (by simp [chooses, hchoose]))
      exact ⟨fun route hroute => by rw [hall]; exact h.selectors route hroute,
        by simp only [hall]; exact h.remaining, hexplored⟩
  | some chosen =>
      have hmem : chosen ∈ decision.routes := List.mem_of_find?_eq_some hchoose
      have hother : ∀ route ∈ decision.routes, route ≠ chosen →
          chooses decision route values = false := by
        intro route hroute hne
        rw [← Bool.not_eq_true, chooses_iff hids hroute, hchoose]
        exact fun heq => hne (Option.some.inj heq).symm
      dsimp only
      rw [h.selectors chosen hmem]
      cases hold : tried.find? (chooses decision chosen) with
      | some earlier =>
          have hall : ∀ route ∈ decision.routes,
              (tried ++ [values]).find? (chooses decision route)
                = tried.find? (chooses decision route) := by
            intro route hroute
            by_cases heq : route = chosen
            · exact hkeep route (.inr (by rw [heq, hold]; rfl))
            · exact hkeep route (.inl (hother route hroute heq))
          refine ⟨fun route hroute => ?_, ?_, hexplored⟩
          · rw [hall route hroute]
            exact h.selectors route hroute
          · rw [h.remaining]
            exact List.countP_congr fun route hroute => by rw [hall route hroute]
      | none =>
          have hchosen : (tried ++ [values]).find? (chooses decision chosen) = some values := by
            rw [hfind, hold, (chooses_iff hids hmem).mpr hchoose]
            rfl
          have hrest : ∀ route ∈ decision.routes, route ≠ chosen →
              (tried ++ [values]).find? (chooses decision route)
                = tried.find? (chooses decision route) := fun route hroute hne =>
            hkeep route (.inl (hother route hroute hne))
          refine ⟨fun route hroute => ?_, ?_, hexplored⟩
          · by_cases heq : route = chosen
            · rw [heq, mapGet_mapSet_self, hchosen]
            · have hne : route.id ≠ chosen.id := fun hid =>
                heq (List.inj_on_of_nodup_map hids hroute hmem hid)
              rw [mapGet_mapSet_of_ne hne, hrest route hroute heq]
              exact h.selectors route hroute
          · rw [h.remaining]
            refine (countP_of_iff (List.Nodup.of_map _ hids) hmem ?_ ?_ ?_).symm
            · rw [hold]; rfl
            · rw [hchosen]; rfl
            · exact fun route hroute hne => by rw [hrest route hroute hne]

/-- All routes are found, or as many combinations are tried as may be. -/
theorem Found.of_stopped {tried : List RecordedValues} {search : SelectorSearch}
    (h : Found decision tried search) (hlength : tried.length ≤ maxValueCombinations)
    (hstopped : search.stopped = true) (rest : List RecordedValues) :
    ∀ route ∈ decision.routes,
      ((tried ++ rest).take maxValueCombinations).find? (chooses decision route)
        = tried.find? (chooses decision route) := by
  intro route hroute
  rw [SelectorSearch.stopped, Bool.or_eq_true, decide_eq_true_eq, decide_eq_true_eq] at hstopped
  rw [List.take_append, List.take_of_length_le hlength]
  obtain hnone | hall := hstopped
  · have hsome := List.countP_eq_zero.mp (h.remaining.symm.trans hnone) route hroute
    rw [List.find?_append]
    cases hfind : tried.find? (chooses decision route) with
    | none => simp [hfind] at hsome
    | some values => rfl
  · rw [h.explored] at hall
    rw [Nat.sub_eq_zero_of_le hall, List.take_zero, List.append_nil]

theorem found_foldl (hids : (decision.routes.map (·.id)).Nodup) (rest : List RecordedValues) :
    ∀ {tried : List RecordedValues} {search : SelectorSearch}, Found decision tried search →
      tried.length ≤ maxValueCombinations → ∀ route ∈ decision.routes,
        mapGet (rest.foldl (SelectorSearch.turn decision) search).selectors route.id
          = some (((tried ++ rest).take maxValueCombinations).find? (chooses decision route)) := by
  induction rest with
  | nil =>
      intro tried search h hlength route hroute
      rw [List.append_nil, List.take_of_length_le hlength]
      exact h.selectors route hroute
  | cons values rest ih =>
      intro tried search h hlength route hroute
      rw [List.foldl_cons, SelectorSearch.turn]
      by_cases hstopped : search.stopped = true
      · rw [if_pos hstopped, foldl_turn_stopped hstopped,
          h.of_stopped hlength hstopped _ route hroute]
        exact h.selectors route hroute
      · rw [if_neg hstopped, List.append_cons]
        refine ih (h.explore hids values) ?_ route hroute
        simp only [SelectorSearch.stopped, Bool.or_eq_true, decide_eq_true_eq, not_or, not_le,
          h.explored] at hstopped
        rw [List.length_append, List.length_singleton]
        omega

theorem mapGet_map {κ ν μ : Type} [DecidableEq κ] (map : List (κ × ν)) (f : ν → μ) (key : κ) :
    mapGet (map.map fun entry => (entry.1, f entry.2)) key = (mapGet map key).map f := by
  rw [mapGet, mapGet, List.find?_map, Option.map_map, Option.map_map]
  rfl

/-- **The selector of a route** is the first sampled combination that takes it. -/
theorem selectorOf_eq (hkind : decision.kind ≠ .ask) (hids : (decision.routes.map (·.id)).Nodup)
    {route : Route} (hroute : route ∈ decision.routes) : selectorOf decision route
      = ((sampled decision).find? (chooses decision route)).map .recorded := by
  rw [selectorOf, routeSelectors, if_neg hkind, mapGet_map, assign_eq,
    found_foldl hids _ (found_start hids) (Nat.zero_le _) route hroute]
  rfl

/-! ## The combinations are admissible -/

theorem units_unsignedZero (x : Number) : x.unsignedZero.units = x.units := by
  cases x with
  | nan => rfl
  | infinity negative => rfl
  | finite negative m e h =>
      by_cases hm : m = 0
      · simp [Number.unsignedZero, Number.units, hm]
      · simp [Number.unsignedZero, Number.units, hm]

/-- Of finite numbers, one that is not below a bound is none that is less. -/
theorem not_less_of_atLeast {x y : Number} (hx : x.isFinite = true) (hy : y.isFinite = true)
    (h : atLeast x y = true) : x.less y = false := by
  have hless : ∀ {a b : Number}, a.isFinite = true → b.isFinite = true →
      a.less b = decide (a.units < b.units) := by
    intro a b ha hb
    cases a with
    | nan => cases ha
    | infinity negative => cases ha
    | finite => cases b with
      | nan => cases hb
      | infinity negative => cases hb
      | finite => rfl
  rw [hless hx hy, decide_eq_false_iff_not, not_lt]
  rw [atLeast, Bool.or_eq_true, hless hy hx, decide_eq_true_eq] at h
  obtain hlt | hsame := h
  · exact hlt.le
  · rw [Number.same, Bool.and_eq_true, decide_eq_true_eq, decide_eq_true_eq] at hsame
    rw [← units_unsignedZero x, ← units_unsignedZero y, hsame.2]

/-- All samples of a number input are finite. -/
theorem isFinite_sampledNumbers {name : Text} {minimum maximum : Option Number} {x : Number}
    (h : x ∈ sampledNumbers decision name minimum maximum) : x.isFinite = true := by
  rw [sampledNumbers, mem_distinct, List.mem_map] at h
  obtain ⟨y, hy, rfl⟩ := h
  rw [Number.isFinite_unsignedZero]
  rw [List.cons_append, List.mem_cons, List.mem_append, List.mem_flatMap] at hy
  obtain rfl | ⟨constant, hconstant, hy⟩ | hbound := hy
  · decide +kernel
  · have hfinite : constant.isFinite = true := (List.mem_filter.mp hconstant).2
    simp only [List.mem_cons, List.not_mem_nil, or_false] at hy
    obtain hy | hy | hy := hy
    · exact hy ▸ isFinite_plus hfinite (by decide)
    · exact hy ▸ hfinite
    · exact hy ▸ isFinite_plus hfinite (by decide)
  · exact (List.mem_filter.mp hbound).2

/-- A candidate value can be recorded. -/
theorem admits_candidate {tables : UnicodeTables} {input : Input}
    (hsound : InputsSound tables decision.inputs) (hinput : input ∈ decision.inputs)
    {value : RecordedValue} (h : value ∈ candidateValues input decision) :
    input.admits value = true := by
  unfold candidateValues at h
  unfold Input.admits
  split at h
  · next values htype =>
    obtain ⟨t, ht, rfl⟩ := List.mem_map.mp h
    simp [htype, ht]
  · next minimum maximum htype =>
    obtain ⟨x, hx, rfl⟩ := List.mem_map.mp h
    rw [(List.perm_insertionSort _ _).mem_iff, List.mem_filter, Bool.and_eq_true] at hx
    obtain ⟨hsampled, hmin, hmax⟩ := hx
    have hfinite := isFinite_sampledNumbers hsampled
    obtain ⟨hminFinite, hmaxFinite, -⟩ := hsound.bounds input hinput minimum maximum htype
    simp only [htype, hfinite, Bool.true_and, Bool.and_eq_true, Bool.not_eq_true']
    constructor
    · cases minimum with
      | none => rfl
      | some low => exact not_less_of_atLeast hfinite (by simpa using hminFinite) hmin
    · cases maximum with
      | none => rfl
      | some high => exact not_less_of_atLeast (by simpa using hmaxFinite) hfinite hmax

theorem combinationsFrom_admissible {inputs : List Input}
    (hadmits : ∀ input ∈ inputs, ∀ value ∈ candidateValues input decision,
      input.admits value = true) :
    ∀ {before values : RecordedValues}, values ∈ combinationsFrom decision inputs before →
      ∃ after, values = before ++ after ∧ Admissible inputs after := by
  induction inputs with
  | nil =>
      intro before values h
      exact ⟨[], by rw [List.append_nil]; exact List.mem_singleton.mp h, .nil⟩
  | cons input rest ih =>
      obtain ⟨hinput, hrest⟩ := List.forall_mem_cons.mp hadmits
      intro before values h
      obtain ⟨value, hvalue, hmem⟩ := List.mem_flatMap.mp h
      obtain ⟨after, rfl, hafter⟩ := ih hrest hmem
      exact ⟨(input.name, value) :: after, (List.append_cons ..).symm,
        .cons ⟨rfl, hinput value hvalue⟩ hafter⟩

/-- Whatever is tried can be recorded. -/
theorem sampled_admissible {tables : UnicodeTables} (hsound : InputsSound tables decision.inputs)
    {values : RecordedValues} (h : values ∈ sampled decision) :
    Admissible decision.inputs values := by
  obtain ⟨after, rfl, hafter⟩ := combinationsFrom_admissible
    (fun input hinput value hvalue => admits_candidate hsound hinput hvalue)
    (List.mem_of_mem_take h)
  exact hafter

/-! ## Exactness -/

/-- Some values that the phase can record make the engine choose the route. -/
def CanBeTaken (tables : UnicodeTables) (decision : Decision) (route : Route) : Prop :=
  ∃ supplied values, normalizeDecisionInputValues tables decision supplied = .ok values
    ∧ chooseRoute decision values = some route

/-- The selectors, and the findings about them, tell which routes can be taken. -/
structure SelectorsExact (tables : UnicodeTables) (decision : Decision) : Prop where
  sound : ∀ route ∈ decision.routes, ∀ selector, selectorOf decision route = some selector →
    ∃ values, selector = .recorded values
      ∧ (∃ supplied, normalizeDecisionInputValues tables decision supplied = .ok values)
      ∧ chooseRoute decision values = some route
  complete : ∀ route ∈ decision.routes,
    selectorOf decision route = none ↔ ¬ CanBeTaken tables decision route
  reported : ∀ route ∈ decision.routes,
    unreachableFinding decision route ∈ unreachableFindings decision
      ↔ ¬ CanBeTaken tables decision route

/-- One of the sampled combinations takes every route that some admissible values take. -/
def Sampled (decision : Decision) : Prop :=
  ∀ route ∈ decision.routes, ∀ values, Admissible decision.inputs values →
    chooseRoute decision values = some route →
    ∃ tried ∈ sampled decision, chooseRoute decision tried = some route

theorem selectorOf_eq_none (hkind : decision.kind ≠ .ask)
    (hids : (decision.routes.map (·.id)).Nodup) {route : Route} (hroute : route ∈ decision.routes) :
    selectorOf decision route = none
      ↔ ∀ tried ∈ sampled decision, chooseRoute decision tried ≠ some route := by
  rw [selectorOf_eq hkind hids hroute, Option.map_eq_none_iff, List.find?_eq_none]
  exact forall₂_congr fun tried _ => not_congr (chooses_iff hids hroute)

/-- A finding names its route. -/
theorem mem_unreachableFindings (hids : (decision.routes.map (·.id)).Nodup) {route : Route}
    (hroute : route ∈ decision.routes) :
    unreachableFinding decision route ∈ unreachableFindings decision
      ↔ selectorOf decision route = none := by
  rw [unreachableFindings, List.mem_map]
  constructor
  · rintro ⟨other, hother, heq⟩
    obtain ⟨hmem, hnone⟩ := List.mem_filter.mp hother
    have hmessage := congrArg RouteFinding.message heq
    have hid : other.id = route.id := by
      simpa [unreachableFinding, List.append_assoc] using hmessage
    rw [← List.inj_on_of_nodup_map hids hmem hroute hid]
    exact Option.isNone_iff_eq_none.mp hnone
  · intro hnone
    exact ⟨route, List.mem_filter.mpr ⟨hroute, by rw [hnone]; rfl⟩, rfl⟩

/-- **Exactness**, for decisions whose inputs and routes are as `normalizeDecisions`
leaves them. -/
theorem selectorsExact_iff {tables : UnicodeTables} (hkind : decision.kind ≠ .ask)
    (hsound : InputsSound tables decision.inputs) (hids : (decision.routes.map (·.id)).Nodup) :
    SelectorsExact tables decision ↔ Sampled decision := by
  have htaken : ∀ route, CanBeTaken tables decision route ↔ ∃ values,
      Admissible decision.inputs values ∧ chooseRoute decision values = some route := by
    intro route
    rw [CanBeTaken, exists_comm]
    refine exists_congr fun values => ?_
    rw [← normalizeDecisionInputValues_iff hsound, exists_and_right]
  constructor
  · intro hexact route hroute values hvalues hchoose
    by_contra hnot
    have hnone : selectorOf decision route = none :=
      (selectorOf_eq_none hkind hids hroute).mpr fun tried htried h => hnot ⟨tried, htried, h⟩
    exact (hexact.complete route hroute).mp hnone ((htaken route).mpr ⟨values, hvalues, hchoose⟩)
  · intro hsampled
    have hcomplete : ∀ route ∈ decision.routes,
        selectorOf decision route = none ↔ ¬ CanBeTaken tables decision route := by
      intro route hroute
      rw [selectorOf_eq_none hkind hids hroute, htaken]
      constructor
      · rintro hnone ⟨values, hvalues, hchoose⟩
        obtain ⟨tried, htried, h⟩ := hsampled route hroute values hvalues hchoose
        exact hnone tried htried h
      · exact fun hnot tried htried h => hnot ⟨tried, sampled_admissible hsound htried, h⟩
    refine ⟨fun route hroute selector hselector => ?_, hcomplete, fun route hroute => ?_⟩
    · rw [selectorOf_eq hkind hids hroute] at hselector
      obtain ⟨values, hfind, rfl⟩ := Option.map_eq_some_iff.mp hselector
      have hmem := List.mem_of_find?_eq_some hfind
      exact ⟨values, rfl, (normalizeDecisionInputValues_iff hsound).mpr
        (sampled_admissible hsound hmem), (chooses_iff hids hroute).mp (List.find?_some hfind)⟩
    · rw [mem_unreachableFindings hids hroute]
      exact hcomplete route hroute

/-! ## When the samples are enough -/

/-- Every combination of declared choices is tried. -/
theorem mem_combinationsFrom {inputs : List Input} {values : RecordedValues}
    (hchoices : ∀ input ∈ inputs, ∃ choices, input.type = .choice choices)
    (h : Admissible inputs values) : ∀ before, before ++ values ∈ combinationsFrom decision inputs before := by
  induction h with
  | nil => exact fun before => by rw [List.append_nil]; exact List.mem_singleton_self _
  | @cons input entry rest others hentry _ ih =>
      intro before
      obtain ⟨⟨choices, htype⟩, hrest⟩ := List.forall_mem_cons.mp hchoices
      obtain ⟨hname, hadmits⟩ := hentry
      obtain ⟨name, value⟩ := entry
      unfold Input.admits at hadmits
      rw [htype] at hadmits
      cases value with
      | number x => cases hadmits
      | choice t =>
          refine List.mem_flatMap.mpr ⟨.choice t, ?_, ?_⟩
          · rw [candidateValues, htype]
            exact List.mem_map_of_mem (of_decide_eq_true hadmits)
          · obtain rfl : name = input.name := hname
            rw [List.append_cons before _ others]
            exact ih hrest _

/-! ## Accepted decisions -/

variable {tables : UnicodeTables} {context : DecisionContext}

theorem normalizeRouteList_ids {location : Text} {kind : DecisionKind} {inputs : List Input}
    {order : List Text} : ∀ {drafts : List RouteDraft} {ids : List Text} {index : Nat}
    {routes : List Route},
    normalizeRouteList tables location kind inputs order ids index drafts = .ok routes →
    (routes.map (·.id)).Nodup ∧ ∀ route ∈ routes, route.id ∉ ids
  | [], _, _, routes, h => by
      obtain rfl : [] = routes := Except.ok.inj h
      exact ⟨List.nodup_nil, fun _ hmem => absurd hmem List.not_mem_nil⟩
  | draft :: rest, ids, index, routes, h => by
      simp only [normalizeRouteList, bind_eq_ok_iff, failIf_eq_ok_iff, exists_const,
        Except.ok.injEq] at h
      obtain ⟨-, hfresh, display, -, -, when, -, others, hothers, rfl⟩ := h
      obtain ⟨hnodup, hnew⟩ := normalizeRouteList_ids hothers
      refine ⟨List.nodup_cons.mpr ⟨fun hmem => ?_, hnodup⟩,
        List.forall_mem_cons.mpr ⟨hfresh, fun route hroute hmem =>
          hnew route hroute (List.mem_cons_of_mem _ hmem)⟩⟩
      obtain ⟨route, hroute, heq⟩ := List.mem_map.mp hmem
      exact hnew route hroute (heq ▸ List.mem_cons_self)

theorem decisionRoutes_ids {entry : DecisionDraft} {kind : DecisionKind} {location : Text}
    {inputs : List Input} {routes : List Route} {goal : Option When}
    (h : decisionRoutes tables context entry kind location inputs = .ok (routes, goal)) :
    (routes.map (·.id)).Nodup := by
  unfold decisionRoutes at h
  dsimp only at h
  split at h
  · simp only [bind_eq_ok_iff, failIf_eq_ok_iff, exists_const] at h
    obtain ⟨-, rule, -, h⟩ := h
    split at h
    · cases h
    · obtain ⟨rfl, -⟩ := Prod.mk.inj (Except.ok.inj h)
      exact (by decide : [js "goal-met", js "again"].Nodup)
  · simp only [bind_eq_ok_iff, failIf_eq_ok_iff, exists_const, normalizeRoutes,
      Except.ok.injEq, Prod.mk.injEq] at h
    obtain ⟨-, _, ⟨-, hroutes⟩, rfl, -⟩ := h
    exact (normalizeRouteList_ids hroutes).1

theorem normalizeDecision_inputs {ids afters : List Text} {index : Nat} {entry : DecisionDraft}
    (h : normalizeDecision tables context ids afters index entry = .ok decision) :
    InputsSound tables decision.inputs ∧ (decision.routes.map (·.id)).Nodup := by
  simp only [normalizeDecision, bind_eq_ok_iff, failIf_eq_ok_iff, exists_const] at h
  obtain ⟨-, -, h⟩ := h
  split at h
  · cases h
  simp only [bind_eq_ok_iff, failIf_eq_ok_iff, exists_const] at h
  obtain ⟨-, -, h⟩ := h
  split at h
  · cases h
  simp only [bind_eq_ok_iff, failIf_eq_ok_iff, exists_const, throwFirst_eq_ok_iff,
    Except.ok.injEq, Prod.exists] at h
  obtain ⟨-, display, -, -, inputs, hinputs, -, routes, goal, hroutes, maxRounds, -, -, -,
    byGroups, -, -, -, rfl⟩ := h
  exact ⟨normalizeInputs_sound hinputs, decisionRoutes_ids hroutes⟩

theorem normalizeDecisionList_inputs : ∀ {entries : List DecisionDraft} {ids afters : List Text}
    {index : Nat} {decisions : List Decision},
    normalizeDecisionList tables context ids afters index entries = .ok decisions →
    ∀ decision ∈ decisions,
      InputsSound tables decision.inputs ∧ (decision.routes.map (·.id)).Nodup
  | [], _, _, _, decisions, h => by
      obtain rfl : [] = decisions := Except.ok.inj h
      exact fun _ hmem => absurd hmem List.not_mem_nil
  | entry :: rest, ids, afters, index, decisions, h => by
      simp only [normalizeDecisionList, bind_eq_ok_iff, Except.ok.injEq] at h
      obtain ⟨decision, hdecision, others, hothers, rfl⟩ := h
      exact List.forall_mem_cons.mpr
        ⟨normalizeDecision_inputs hdecision, normalizeDecisionList_inputs hothers⟩

/-- **Decisions over choices are sampled whole**: where every input is a choice and all
combinations are tried, the selectors are exact. -/
theorem routeSelectors_exact_choices {drafts : Option (List DecisionDraft)} {decisions : List Decision}
    (h : normalizeDecisions tables drafts context = .ok decisions) (hmem : decision ∈ decisions)
    (hkind : decision.kind ≠ .ask) (hchoices : ∀ input ∈ decision.inputs, ∃ choices, input.type = .choice choices)
    (hfew : (combinations decision).length ≤ maxValueCombinations) : SelectorsExact tables decision := by
  obtain ⟨hsound, hids⟩ := normalizeDecisionList_inputs h decision hmem
  refine (selectorsExact_iff hkind hsound hids).mpr fun route _ values hvalues hchoose => ⟨values, ?_, hchoose⟩
  rw [sampled, List.take_of_length_le hfew]
  exact mem_combinationsFrom hchoices hvalues []

section Example

/-- Two phases, and a score that is recorded after the first. -/
def scoreContext : DecisionContext :=
  ⟨js "report", [⟨js "check", none, none, [], none, false, false⟩,
    ⟨js "publish", none, none, [], none, false, false⟩], [], none⟩

/-- The first route is for scores that the test accepts. -/
def scoreDraft (test : TestDraft) : List DecisionDraft :=
  [⟨js "score", js "check", js "branch", some (js "Score"),
    some [⟨js "score", none, some (js "number"), none, none, none⟩],
    some [⟨js "near", some (js "Near"), some [(js "score", test)], js "next", none⟩,
      ⟨js "far", some (js "Far"), none, js "next", none⟩], none, none, none, none, none, none⟩]

def nearRoute (test : Test) : Route :=
  ⟨js "near", js "Near", some [(js "score", test)], js "next", none⟩

def farRoute : Route := ⟨js "far", js "Far", none, js "next", none⟩

/-- What the draft is normalized to. -/
def scoreDecision (test : Test) : Decision :=
  ⟨js "score", js "check", .branch, js "Score", [⟨js "score", js "score", .number none none⟩],
    [nearRoute test, farRoute], none, none, [], false, false⟩

def oneAndAHalf : Number := ofDecimal false 15 (-1)

theorem normalize_atLeast : normalizeDecisions asciiTables
    (some (scoreDraft (.bounds (some (.ofNat 1)) none none none))) scoreContext
      = .ok [scoreDecision (.bounds (some (.ofNat 1)) none none none)] := rfl

theorem normalize_between : normalizeDecisions asciiTables
    (some (scoreDraft (.bounds none none (some (.ofNat 1)) (some oneAndAHalf)))) scoreContext
      = .ok [scoreDecision (.bounds none none (some (.ofNat 1)) (some oneAndAHalf))] := rfl

theorem scoreDecision_ids (test : Test) : ((scoreDecision test).routes.map (·.id)).Nodup :=
  (by decide : [js "near", js "far"].Nodup)

/-- A verdict, and a route for each. -/
def verdictDraft : List DecisionDraft :=
  [⟨js "verdict", js "check", js "branch", some (js "Verdict"),
    some [⟨js "verdict", none, none, some [js "pass", js "fail"], none, none⟩],
    some [⟨js "good", some (js "Good"), some [(js "verdict", .choice (js "pass"))], js "next", none⟩,
      ⟨js "bad", some (js "Bad"), none, js "next", none⟩], none, none, none, none, none, none⟩]

def verdictDecision : Decision :=
  ⟨js "verdict", js "check", .branch, js "Verdict",
    [⟨js "verdict", js "verdict", .choice [js "pass", js "fail"]⟩],
    [⟨js "good", js "Good", some [(js "verdict", .isIn [js "pass"])], js "next", none⟩,
      ⟨js "bad", js "Bad", none, js "next", none⟩], none, none, [], false, false⟩

theorem routeSelectors_exact_verdict : SelectorsExact asciiTables verdictDecision :=
  routeSelectors_exact_choices
    (h := (rfl : normalizeDecisions asciiTables (some verdictDraft) scoreContext = .ok [verdictDecision]))
    List.mem_cons_self nofun (List.forall_mem_singleton.mpr ⟨_, rfl⟩) (by decide)

end Example

end Story

end SingularityFlow
