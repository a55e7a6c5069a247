/-
# The obligation analyses and the walks of the graph

Each analysis is compared with what it is about, all finite walks of the route
graph.  What is guaranteed at an end, and whether a step implements without a plan,
is exact.  Whether a step verifies without a review is not: `reviewed` begins at
`false` where `omittedOnEveryRoute` begins at `true`, so that a walk that goes on
for ever without a review counts as one that ends without.  And the two answers, an
omission at every end and a review on every walk, are asked for one at a time,
where some walks have the one and the rest the other.  `exactAnalysis_iff` says
that nothing else is wrong.
-/
import SingularityFlow.Evidence.ObligationGraph
import SingularityFlow.Lib.Walks

namespace SingularityFlow

open Ecma Passes Walks

namespace Evidence

namespace Graph

variable (graph : Graph)

/-! ## Graphs of work types -/

/-- A step follows another. -/
def Follows (a b : Text) : Prop := ∃ edge ∈ graph.edges, edge.source = a ∧ edge.target = some b

/-- Edges go from steps to steps or to the end, and every step has one. -/
structure Routed : Prop where
  source_mem : ∀ edge ∈ graph.edges, edge.source ∈ graph.order
  target_mem : ∀ edge ∈ graph.edges, ∀ target, edge.target = some target → target ∈ graph.order
  outgoing : ∀ id ∈ graph.order, graph.outgoing id ≠ []

variable {graph}

theorem Routed.follows_mem (h : graph.Routed) {a b : Text} (hfollows : graph.Follows a b) :
    a ∈ graph.order := by
  obtain ⟨edge, hedge, rfl, -⟩ := hfollows
  exact h.source_mem edge hedge

theorem Routed.target_follows (h : graph.Routed) {a b : Text} (hfollows : graph.Follows a b) :
    b ∈ graph.order := by
  obtain ⟨edge, hedge, -, htarget⟩ := hfollows
  exact h.target_mem edge hedge b htarget

theorem mem_outgoing {id : Text} {edge : Edge} :
    edge ∈ graph.outgoing id ↔ edge ∈ graph.edges ∧ edge.source = id := by
  simp [outgoing]

/-! ## Reachability -/

/-- Some walk from the first step leads to the step. -/
def Reached (graph : Graph) (id : Text) : Prop :=
  ∃ first, graph.order.head? = some first ∧ ∃ before, Walk graph.Follows first before id

theorem reach_stable : ∀ edge ∈ graph.forward, reach.changes graph.reachable edge = false := by
  -- a target that is new lowers the number of edges whose targets are
  refine settle_stable (fun _ => True)
    (fun reached => graph.forward.countP fun edge => edge.target.any (· ∉ reached))
    (fun _ _ _ => trivial) ?_ trivial (Nat.lt_succ_of_le List.countP_le_length)
  intro reached edge _ hedge hchanges
  obtain ⟨-, hnew⟩ := Bool.and_eq_true_iff.mp hchanges
  refine countP_lt (fun other _ hother => ?_) hedge hnew ?_
  · cases htarget : other.target with
    | none =>
        rw [htarget] at hother
        cases hother
    | some target =>
        rw [htarget] at hother
        simp only [Option.any_some, reach, List.mem_append, not_or, decide_eq_true_eq] at hother ⊢
        exact hother.1
  · cases htarget : edge.target with
    | none => rfl
    | some target => simp [reach, htarget]

theorem mem_reachable {id : Text} : id ∈ graph.reachable ↔ graph.Reached id := by
  constructor
  · intro h
    refine settle_keeps (fun reached => ∀ id ∈ reached, graph.Reached id) ?_ ?_ id h
    · intro reached edge hreached hedge hchanges
      obtain ⟨hsource, -⟩ := Bool.and_eq_true_iff.mp hchanges
      intro id hid
      rcases List.mem_append.mp hid with hid | hid
      · exact hreached id hid
      · obtain ⟨first, hfirst, before, hwalk⟩ := hreached _ (of_decide_eq_true hsource)
        refine ⟨first, hfirst, _, hwalk.step ⟨edge, (List.mem_filter.mp hedge).1, rfl, ?_⟩⟩
        simpa using hid
    · intro id hid
      exact ⟨id, by simpa using hid, [], .here id⟩
  · rintro ⟨first, hfirst, before, hwalk⟩
    induction hwalk with
    | here =>
        exact settle_keeps (fun reached => first ∈ reached) (fun h _ _ => List.mem_append_left _ h)
          (by simp [hfirst])
    | step hwalk hstep ih =>
        obtain ⟨edge, hedge, rfl, htarget⟩ := hstep
        have hforward : edge ∈ graph.forward := List.mem_filter.mpr ⟨hedge, by simp [htarget]⟩
        have hstable := reach_stable edge hforward
        by_contra hnot
        simp [reach, htarget, ih, hnot] at hstable

/-! ## What every walk to a step has done -/

theorem mem_preds {id source : Text} : source ∈ graph.preds id ↔ graph.Follows source id := by
  simp only [preds, List.mem_map, List.mem_filter, decide_eq_true_eq, Follows]
  exact ⟨fun ⟨edge, ⟨hedge, htarget⟩, hsource⟩ => ⟨edge, hedge, hsource, htarget⟩,
    fun ⟨edge, hedge, hsource, htarget⟩ => ⟨edge, ⟨hedge, htarget⟩, hsource⟩⟩

theorem mem_foldl_inter {values : Text → Finset Duty × Finset Duty} {duty : Duty} :
    ∀ {incoming : List Text} {mask : Finset Duty},
      duty ∈ incoming.foldl (fun mask source => mask ∩ (values source).2) mask
        ↔ duty ∈ mask ∧ ∀ source ∈ incoming, duty ∈ (values source).2 := by
  intro incoming
  induction incoming with
  | nil => simp
  | cons source incoming ih =>
      intro mask
      rw [List.foldl_cons, ih, List.forall_mem_cons, Finset.mem_inter, and_assoc]

/-- A step that is reached, and is not the first, is reached from another. -/
theorem incoming_ne_nil {id : Text} (h : id ∈ graph.reachable) (hfirst : graph.order.head? ≠ some id) :
    (graph.preds id).filter (· ∈ graph.reachable) ≠ [] := by
  obtain ⟨first, hhead, before, hwalk⟩ := mem_reachable.mp h
  cases hwalk with
  | here => exact absurd hhead hfirst
  | @step source _ before hwalk hstep =>
      have hsource : source ∈ graph.reachable := mem_reachable.mpr ⟨first, hhead, before, hwalk⟩
      exact List.ne_nil_of_mem (List.mem_filter.mpr ⟨mem_preds.mpr hstep, by simpa using hsource⟩)

/-- What the rule finds for a step that is reached. -/
theorem mem_intoNext {values : Text → Finset Duty × Finset Duty} {id : Text} {duty : Duty}
    (h : id ∈ graph.reachable) :
    (duty ∈ (graph.intoNext values id).1 ↔ graph.order.head? ≠ some id
      ∧ ∀ source, source ∈ graph.reachable → graph.Follows source id → duty ∈ (values source).2)
    ∧ (duty ∈ (graph.intoNext values id).2
      ↔ duty ∈ (graph.intoNext values id).1 ∨ duty ∈ graph.gen id) := by
  rw [intoNext, if_neg (not_not.mpr h)]
  refine ⟨?_, Finset.mem_union⟩
  dsimp only
  by_cases hfirst : graph.order.head? = some id
  · rw [if_pos (Or.inl hfirst)]
    simp [hfirst]
  · rw [if_neg (not_or.mpr ⟨hfirst, incoming_ne_nil h hfirst⟩), mem_foldl_inter]
    simp only [Finset.mem_univ, true_and, List.mem_filter, decide_eq_true_eq, mem_preds, and_imp]
    exact ⟨fun hall => ⟨hfirst, fun source hreached hfollows => hall source hfollows hreached⟩,
      fun hall source hfollows hreached => hall.2 source hreached hfollows⟩

theorem intoNext_mono {values values' : Text → Finset Duty × Finset Duty} (h : values ≤ values')
    (id : Text) : graph.intoNext values id ≤ graph.intoNext values' id := by
  by_cases hreach : id ∈ graph.reachable
  · have hinto : (graph.intoNext values id).1 ⊆ (graph.intoNext values' id).1 := by
      intro duty hduty
      obtain ⟨hfirst, hall⟩ := (mem_intoNext hreach).1.mp hduty
      exact (mem_intoNext hreach).1.mpr ⟨hfirst, fun source hsource hfollows =>
        (h source).2 (hall source hsource hfollows)⟩
    refine ⟨hinto, fun duty hduty => ?_⟩
    exact (mem_intoNext hreach).2.mpr (((mem_intoNext hreach).2.mp hduty).imp_left (hinto ·))
  · rw [intoNext, intoNext, if_pos hreach, if_pos hreach]
    exact h id

theorem masksStart_lowers : Lowers graph.intoNext graph.order graph.masksStart := by
  intro id _
  by_cases hreach : id ∈ graph.reachable
  · have hinto : (graph.intoNext graph.masksStart id).1 ⊆ (graph.masksStart id).1 := by
      intro duty hduty
      have hfirst := ((mem_intoNext hreach).1.mp hduty).1
      simp [masksStart, hfirst]
    refine ⟨hinto, fun duty hduty => ?_⟩
    rcases (mem_intoNext hreach).2.mp hduty with hduty | hduty
    · exact Finset.mem_union_left _ (hinto hduty)
    · exact Finset.mem_union_right _ hduty
  · rw [intoNext, if_pos hreach]

/-- The number of duties of both masks. -/
theorem card_strictMono : StrictMono fun value : Finset Duty × Finset Duty =>
    value.1.card + value.2.card := by
  intro value value' hlt
  rcases Prod.lt_iff.mp hlt with ⟨hlt, hle⟩ | ⟨hle, hlt⟩
  · exact add_lt_add_of_lt_of_le (Finset.card_lt_card hlt) (Finset.card_le_card hle)
  · exact add_lt_add_of_le_of_lt (Finset.card_le_card hle) (Finset.card_lt_card hlt)

theorem masks_fixed : ∀ id ∈ graph.order, graph.intoNext graph.masks id = graph.masks id := by
  have hcard : ∀ mask : Finset Duty, mask.card ≤ 6 := fun mask => Finset.card_le_univ mask
  exact settle_descends (fun h id => intoNext_mono h id) _ card_strictMono
    (fun value => add_le_add (hcard value.1) (hcard value.2)) masksStart_lowers (Nat.lt_succ_self _)

variable {first id : Text} {duty : Duty}

/-- Every walk from the first step to a step passes one that does the duty. -/
def PassedBefore (graph : Graph) (duty : Duty) (id : Text) : Prop :=
  ∀ first, graph.order.head? = some first →
    AllPass graph.Follows first (fun step => duty ∈ graph.gen step) id

/-- What is true of all walks to a step is in its masks. -/
def Covered (graph : Graph) (duty : Duty) (values : Text → Finset Duty × Finset Duty) : Prop :=
  ∀ id ∈ graph.reachable, (graph.PassedBefore duty id → duty ∈ (values id).1)
    ∧ (graph.PassedBefore duty id ∨ duty ∈ graph.gen id → duty ∈ (values id).2)

theorem covered_start : graph.Covered duty graph.masksStart := by
  intro id _
  have hinto : graph.PassedBefore duty id → duty ∈ (graph.masksStart id).1 := by
    intro hpassed
    by_cases hhead : graph.order.head? = some id
    · exact absurd rfl (passed_of_walks (hpassed id hhead)).1
    · simp [masksStart, hhead]
  exact ⟨hinto, fun hboth => Finset.mem_union.mpr (hboth.imp_left hinto)⟩

theorem covered_step {values : Text → Finset Duty × Finset Duty} (h : graph.Covered duty values)
    (place : Text) :
    graph.Covered duty (Function.update values place (graph.intoNext values place)) := by
  intro id hid
  by_cases hplace : id = place
  · subst hplace
    rw [Function.update_self]
    have hinto : graph.PassedBefore duty id → duty ∈ (graph.intoNext values id).1 := by
      intro hpassed
      obtain ⟨first, hhead, -⟩ := mem_reachable.mp hid
      obtain ⟨hne, hbefore⟩ := passed_of_walks (hpassed first hhead)
      refine (mem_intoNext hid).1.mpr ⟨fun h => hne (Option.some.inj (h.symm.trans hhead)), ?_⟩
      intro source hsource hfollows
      refine (h source hsource).2 ((hbefore source hfollows).imp_left fun hall other hother => ?_)
      rwa [Option.some.inj (hother.symm.trans hhead)]
    exact ⟨hinto, fun hboth => (mem_intoNext hid).2.mpr (hboth.imp_left hinto)⟩
  · rw [Function.update_of_ne hplace]
    exact h id hid

theorem masks_covered : graph.Covered duty graph.masks :=
  settle_keeps (graph.Covered duty) (fun h _ _ => covered_step h _) covered_start

/-- **The masks are exact**: a duty is in them if and only if every walk has done
it. -/
theorem mem_masks (hrouted : graph.Routed) (horder : id ∈ graph.order) (hid : id ∈ graph.reachable) :
    (duty ∈ (graph.masks id).1 ↔ graph.PassedBefore duty id)
      ∧ (duty ∈ (graph.masks id).2 ↔ graph.PassedBefore duty id ∨ duty ∈ graph.gen id) := by
  have hinto : duty ∈ (graph.masks id).1 → graph.PassedBefore duty id := by
    intro hduty first hhead
    refine walks_of_passed (fun id => id ∈ graph.order ∧ id ∈ graph.reachable
      ∧ duty ∈ (graph.masks id).1) ?_ ⟨horder, hid, hduty⟩
    rintro b ⟨hb, hreach, hmask⟩
    rw [← masks_fixed b hb] at hmask
    obtain ⟨hne, hall⟩ := (mem_intoNext hreach).1.mp hmask
    refine ⟨fun heq => hne (heq ▸ hhead), fun a before hwalk hfollows => ?_⟩
    have hsource := hrouted.follows_mem hfollows
    have hreached : a ∈ graph.reachable := mem_reachable.mpr ⟨first, hhead, before, hwalk⟩
    have hout := hall a hreached hfollows
    rw [← masks_fixed a hsource, (mem_intoNext hreached).2, masks_fixed a hsource] at hout
    exact hout.imp_left fun h => ⟨hsource, hreached, h⟩
  refine ⟨⟨hinto, (masks_covered id hid).1⟩, fun hduty => ?_, (masks_covered id hid).2⟩
  rw [← masks_fixed id horder, (mem_intoNext hid).2, masks_fixed id horder] at hduty
  exact hduty.imp_left hinto

/-! ## What every end omits -/

/-- The step has an edge to the end that does not omit the duty. -/
def EndsWithout (graph : Graph) (duty : Duty) (id : Text) : Prop :=
  ∃ edge ∈ graph.edges, edge.source = id ∧ edge.target = none ∧ edge.omitting duty = false

theorem toNat_strictMono : StrictMono Bool.toNat := by
  intro a b hlt
  revert hlt
  cases a <;> cases b <;> decide

/-- What the rule finds for a step. -/
theorem omittedNext_iff (hrouted : graph.Routed) (horder : id ∈ graph.order) {values : Text → Bool} :
    graph.omittedNext duty values id = true
      ↔ ¬ graph.EndsWithout duty id ∧ ∀ b, graph.Follows id b → values b = true := by
  rw [omittedNext, Bool.and_eq_true, decide_eq_true_eq, List.all_eq_true]
  constructor
  · rintro ⟨-, hall⟩
    refine ⟨?_, ?_⟩
    · rintro ⟨edge, hedge, hsource, htarget, hkept⟩
      have := hall edge (mem_outgoing.mpr ⟨hedge, hsource⟩)
      rw [htarget] at this
      exact Bool.false_ne_true (hkept.symm.trans this)
    · rintro b ⟨edge, hedge, hsource, htarget⟩
      have := hall edge (mem_outgoing.mpr ⟨hedge, hsource⟩)
      rwa [htarget] at this
  · rintro ⟨hends, hall⟩
    refine ⟨hrouted.outgoing id horder, fun edge hedge => ?_⟩
    obtain ⟨hedge, hsource⟩ := mem_outgoing.mp hedge
    cases htarget : edge.target with
    | none =>
        refine Bool.not_eq_false _ |>.mp fun hkept => ?_
        exact hends ⟨edge, hedge, hsource, htarget, hkept⟩
    | some b => exact hall b ⟨edge, hedge, hsource, htarget⟩

theorem omitted_fixed : ∀ id ∈ graph.order,
    graph.omittedNext duty (graph.omittedOnEveryRoute duty) id = graph.omittedOnEveryRoute duty id := by
  refine settle_descends ?_ _ toNat_strictMono Bool.toNat_le ?_ (by omega)
  · intro values values' h id
    refine Bool.le_iff_imp.mpr fun hnext => ?_
    obtain ⟨hne, hall⟩ := Bool.and_eq_true_iff.mp hnext
    refine Bool.and_eq_true_iff.mpr ⟨hne, List.all_eq_true.mpr fun edge hedge => ?_⟩
    have := List.all_eq_true.mp hall edge hedge
    cases htarget : edge.target with
    | none => rwa [htarget] at this
    | some b =>
        rw [htarget] at this
        exact Bool.le_iff_imp.mp (h b) this
  · intro id hid
    exact (Bool.le_true _).trans (decide_eq_true hid).ge

/-- **An omission on every route is exact**: no walk from the step ends without it. -/
theorem omittedOnEveryRoute_iff (hrouted : graph.Routed) (horder : id ∈ graph.order) :
    graph.omittedOnEveryRoute duty id = true
      ↔ AllAvoid graph.Follows (graph.EndsWithout duty) id := by
  constructor
  · intro h
    refine walks_of_avoids (fun id => id ∈ graph.order
      ∧ graph.omittedOnEveryRoute duty id = true) ?_ ⟨horder, h⟩
    rintro a ⟨ha, hvalue⟩
    rw [← omitted_fixed a ha, omittedNext_iff hrouted ha] at hvalue
    exact ⟨hvalue.1, fun b hfollows => ⟨hrouted.target_follows hfollows, hvalue.2 b hfollows⟩⟩
  · refine settle_keeps (fun values : Text → Bool => ∀ id ∈ graph.order,
      AllAvoid graph.Follows (graph.EndsWithout duty) id → values id = true) ?_ ?_ id horder
    · intro values place hvalues _ _ id hid havoid
      by_cases hplace : id = place
      · subst hplace
        change Function.update values id (graph.omittedNext duty values id) id = true
        rw [Function.update_self, omittedNext_iff hrouted hid]
        obtain ⟨hends, hnext⟩ := avoids_of_walks havoid
        exact ⟨hends, fun b hfollows =>
          hvalues b (hrouted.target_follows hfollows) (hnext b hfollows)⟩
      · change Function.update values place _ id = true
        rw [Function.update_of_ne hplace]
        exact hvalues id hid havoid
    · exact fun id hid _ => decide_eq_true hid

/-! ## What meets a review -/

/-- The step has an edge to the end. -/
def Ends (graph : Graph) (id : Text) : Prop :=
  ∃ edge ∈ graph.edges, edge.source = id ∧ edge.target = none

/-- A walk from the step meets no review, and ends or goes on for ever. -/
def Unreviewed (graph : Graph) : Text → Prop :=
  Escapes graph.Follows (fun id => .review ∉ graph.gen id) graph.Ends

theorem all_reviewed_iff {values : Text → Bool} :
    (graph.outgoing id).all (reviewedBehind values) = true
      ↔ ¬ graph.Ends id ∧ ∀ b, graph.Follows id b → values b = true := by
  rw [List.all_eq_true]
  constructor
  · intro hall
    refine ⟨?_, ?_⟩
    · rintro ⟨edge, hedge, hsource, htarget⟩
      have := hall edge (mem_outgoing.mpr ⟨hedge, hsource⟩)
      rw [reviewedBehind, htarget] at this
      cases this
    · rintro b ⟨edge, hedge, hsource, htarget⟩
      have := hall edge (mem_outgoing.mpr ⟨hedge, hsource⟩)
      rwa [reviewedBehind, htarget] at this
  · rintro ⟨hends, hall⟩ edge hedge
    obtain ⟨hedge, hsource⟩ := mem_outgoing.mp hedge
    rw [reviewedBehind]
    cases htarget : edge.target with
    | none => exact absurd ⟨edge, hedge, hsource, htarget⟩ hends
    | some b => exact hall b ⟨edge, hedge, hsource, htarget⟩

theorem reviewedNext_iff (hrouted : graph.Routed) (horder : id ∈ graph.order) {values : Text → Bool} :
    graph.reviewedNext values id = true ↔ .review ∈ graph.gen id
      ∨ (¬ graph.Ends id ∧ ∀ b, graph.Follows id b → values b = true) := by
  rw [reviewedNext, Bool.or_eq_true, Bool.and_eq_true, all_reviewed_iff, decide_eq_true_eq,
    decide_eq_true_eq]
  exact or_congr_right (and_iff_right (hrouted.outgoing id horder))

theorem reviewed_fixed : ∀ id ∈ graph.order,
    graph.reviewedNext graph.reviewed id = graph.reviewed id := by
  -- the values can only rise: they fall in the order turned round
  refine settle_descends (V := Boolᵒᵈ) ?_ (fun value : Bool => (!value).toNat) ?_
    (fun value => Bool.toNat_le (!value)) ?_ (by omega)
  · intro values values' h id
    change graph.reviewedNext values' id ≤ graph.reviewedNext values id
    refine Bool.le_iff_imp.mpr fun hnext => ?_
    rcases Bool.or_eq_true_iff.mp hnext with hreview | hbehind
    · exact Bool.or_eq_true_iff.mpr (Or.inl hreview)
    · obtain ⟨hne, hall⟩ := Bool.and_eq_true_iff.mp hbehind
      obtain ⟨hends, hall⟩ := all_reviewed_iff.mp hall
      refine Bool.or_eq_true_iff.mpr (Or.inr (Bool.and_eq_true_iff.mpr ⟨hne, ?_⟩))
      exact all_reviewed_iff.mpr ⟨hends, fun b hfollows =>
        Bool.le_iff_imp.mp (h b) (hall b hfollows)⟩
  · intro a b hlt
    change Bool.toNat (!a) < Bool.toNat (!b)
    revert hlt
    cases a <;> cases b <;> decide
  · exact fun _ _ => Bool.false_le _

/-- **What is reviewed**: no walk from the step goes without a review to the end, or
for ever. -/
theorem reviewed_iff (hrouted : graph.Routed) (horder : id ∈ graph.order) :
    graph.reviewed id = true ↔ ¬ graph.Unreviewed id := by
  constructor
  · refine settle_keeps (fun values : Text → Bool => ∀ id ∈ graph.order,
      values id = true → ¬ graph.Unreviewed id) ?_ (fun _ _ h => by cases h) id horder
    intro values place hvalues _ _ id hid hvalue hescapes
    by_cases hplace : id = place
    · subst hplace
      change Function.update values id (graph.reviewedNext values id) id = true at hvalue
      rw [Function.update_self, reviewedNext_iff hrouted hid] at hvalue
      obtain ⟨hfree, hon⟩ := hescapes.first
      rcases hvalue with hreview | ⟨hends, hall⟩
      · exact hfree hreview
      · rcases hon with hend | ⟨b, hfollows, hb⟩
        · exact hends hend
        · exact hvalues b (hrouted.target_follows hfollows) (hall b hfollows) hb
    · change Function.update values place _ id = true at hvalue
      rw [Function.update_of_ne hplace] at hvalue
      exact hvalues id hid hvalue hescapes
  · intro hescapes
    by_contra hvalue
    refine hescapes (escapes_of_closed (fun id => id ∈ graph.order
      ∧ ¬ graph.reviewed id = true) ?_ ⟨horder, hvalue⟩)
    rintro a ⟨ha, hvalue⟩
    rw [← reviewed_fixed a ha, reviewedNext_iff hrouted ha, not_or, not_and_or, not_not] at hvalue
    obtain ⟨hfree, hends | hnext⟩ := hvalue
    · exact ⟨hfree, Or.inl hends⟩
    · push Not at hnext
      obtain ⟨b, hfollows, hb⟩ := hnext
      exact ⟨hfree, Or.inr ⟨b, hfollows, hrouted.target_follows hfollows, hb⟩⟩

end Graph

end Evidence

end SingularityFlow
