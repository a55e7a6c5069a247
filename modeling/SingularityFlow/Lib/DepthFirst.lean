/-
# Depth-first walks of a dependency graph

Two walks that a program writes as a recursive `visit`.  `descend` keeps the
trail of the nodes it is inside of, and fails when it meets one of them again;
where it succeeds, the nodes it has seen are `Grounded`: they can be listed so
that each comes after its dependencies.  `collect` keeps no trail; it marks a
node before it visits the dependencies, and lists it after them.  Both are
given fuel for the depth.

A grounded graph has a rank that every dependency lowers.  The rank is what
`collect` descends on, and it is why its list has the dependencies first: what
is marked and not yet listed is of a higher rank than the node at hand.
-/
import Mathlib.Data.List.Perm.Subperm
import Mathlib.Data.Finset.Dedup
import Mathlib.Data.Finset.Card

namespace DepthFirst

/-! ## The search for a cycle -/

section Descend

variable {α : Type} [DecidableEq α] (deps : α → List α)

/-- One visit: the nodes seen, or the trail up to a node that is met again. -/
def descend : Nat → List α → List α → α → Except (List α) (List α)
  | 0, trail, _, a => .error (trail ++ [a])
  | fuel + 1, trail, visited, a =>
      if a ∈ trail then .error (trail ++ [a])
      else if a ∈ visited then .ok visited
      else do
        let visited' ← (deps a).foldlM (descend fuel (trail ++ [a])) visited
        .ok (a :: visited')

/-- Each node comes before the nodes that have it as a dependency, from the
end of the list. -/
inductive Grounded : List α → Prop
  | nil : Grounded []
  | cons {a : α} {l : List α} : deps a ⊆ l → Grounded l → Grounded (a :: l)

/-- What a visit leaves: more nodes are seen, the one at hand among them, and
none outside of a set that is closed under dependencies. -/
structure Descended (nodes visited visited' : List α) : Prop where
  grounded : Grounded deps visited'
  subset : visited ⊆ visited'
  inside : visited' ⊆ nodes

variable {deps}

omit [DecidableEq α] in
theorem foldlM_descended {nodes : List α} {visit : List α → α → Except (List α) (List α)}
    (hvisit : ∀ {a v v'}, a ∈ nodes → Grounded deps v → v ⊆ nodes → visit v a = .ok v' →
      Descended deps nodes v v' ∧ a ∈ v') {l : List α} (hl : l ⊆ nodes) :
    ∀ {v v' : List α}, Grounded deps v → v ⊆ nodes → l.foldlM visit v = .ok v' →
      Descended deps nodes v v' ∧ l ⊆ v' := by
  induction l with
  | nil =>
      intro v v' hg hv h
      obtain rfl := Except.ok.inj h
      exact ⟨⟨hg, fun _ hx => hx, hv⟩, List.nil_subset _⟩
  | cons a l ih =>
      intro v v' hg hv h
      rw [List.cons_subset] at hl
      rw [List.foldlM_cons] at h
      cases hstep : visit v a with
      | error e => rw [hstep] at h; cases h
      | ok w =>
          rw [hstep] at h
          obtain ⟨hw, ha⟩ := hvisit hl.1 hg hv hstep
          obtain ⟨hv', hsub⟩ := ih hl.2 hw.grounded hw.inside h
          exact ⟨⟨hv'.grounded, fun x hx => hv'.subset (hw.subset hx), hv'.inside⟩,
            List.cons_subset.mpr ⟨hv'.subset ha, hsub⟩⟩

/-- **A visit that succeeds has seen a grounded set of nodes.** -/
theorem descend_descended {nodes : List α} (hclosed : ∀ a ∈ nodes, deps a ⊆ nodes) :
    ∀ {fuel : Nat} {trail visited visited' : List α} {a : α}, a ∈ nodes →
      Grounded deps visited → visited ⊆ nodes →
      descend deps fuel trail visited a = .ok visited' →
      Descended deps nodes visited visited' ∧ a ∈ visited' := by
  intro fuel
  induction fuel with
  | zero => intro trail visited visited' a _ _ _ h; cases h
  | succ fuel ih =>
      intro trail visited visited' a ha hg hv h
      rw [descend] at h
      split_ifs at h with htrail hseen
      · obtain rfl := Except.ok.inj h
        exact ⟨⟨hg, fun _ hx => hx, hv⟩, hseen⟩
      · cases hfold : (deps a).foldlM (descend deps fuel (trail ++ [a])) visited with
        | error e => rw [hfold] at h; cases h
        | ok w =>
            rw [hfold] at h
            obtain rfl := Except.ok.inj h
            obtain ⟨hw, hdeps⟩ := foldlM_descended ih (hclosed a ha) hg hv hfold
            exact ⟨⟨.cons hdeps hw.grounded, fun x hx => List.mem_cons_of_mem _ (hw.subset hx),
              List.cons_subset.mpr ⟨ha, hw.inside⟩⟩, List.mem_cons_self ..⟩

/-- A grounded graph has a rank that dependencies lower. -/
theorem Grounded.exists_rank {l : List α} (h : Grounded deps l) : ∃ rank : α → Nat,
    ∀ a ∈ l, rank a < l.toFinset.card ∧ ∀ d ∈ deps a, d ∈ l ∧ rank d < rank a := by
  induction h with
  | nil => exact ⟨fun _ => 0, nofun⟩
  | @cons a l hdeps _ ih =>
      obtain ⟨rank, hrank⟩ := ih
      by_cases ha : a ∈ l
      · refine ⟨rank, fun x hx => ?_⟩
        have hx' : x ∈ l := by
          rcases List.mem_cons.mp hx with rfl | hx
          · exact ha
          · exact hx
        rw [List.toFinset_cons, Finset.insert_eq_of_mem (List.mem_toFinset.mpr ha)]
        exact ⟨(hrank x hx').1, fun d hd =>
          ⟨List.mem_cons_of_mem _ ((hrank x hx').2 d hd).1, ((hrank x hx').2 d hd).2⟩⟩
      · have hcard : (a :: l).toFinset.card = l.toFinset.card + 1 := by
          rw [List.toFinset_cons, Finset.card_insert_of_notMem (fun h => ha (List.mem_toFinset.mp h))]
        -- the new node is above the others
        let rank' : α → Nat := fun x => if x = a then l.toFinset.card else rank x
        have hself : rank' a = l.toFinset.card := if_pos rfl
        have hother : ∀ x ∈ l, rank' x = rank x := fun x hx =>
          if_neg fun h : x = a => ha (h ▸ hx)
        refine ⟨rank', fun x hx => ?_⟩
        rw [hcard]
        rcases List.mem_cons.mp hx with rfl | hx
        · refine ⟨by omega, fun d hd => ⟨List.mem_cons_of_mem _ (hdeps hd), ?_⟩⟩
          rw [hself, hother d (hdeps hd)]
          exact (hrank d (hdeps hd)).1
        · obtain ⟨hlt, hdown⟩ := hrank x hx
          rw [hother x hx]
          refine ⟨by omega, fun d hd => ?_⟩
          obtain ⟨hmem, hd⟩ := hdown d hd
          rw [hother d hmem]
          exact ⟨List.mem_cons_of_mem _ hmem, hd⟩

end Descend

/-! ## The list with dependencies first -/

section Collect

variable {α β : Type} [DecidableEq α] (node? : α → Option β) (deps : β → List α)

/-- One visit: a node is marked, its dependencies are visited, and it is listed.
A name that no node has is marked only. -/
def collect : Nat → List α × List β → α → List α × List β
  | 0, state, _ => state
  | fuel + 1, (visited, ordered), a =>
      if a ∈ visited then (visited, ordered)
      else
        match node? a with
        | none => (a :: visited, ordered)
        | some b =>
            let state := (deps b).foldl (collect fuel) (a :: visited, ordered)
            (state.1, state.2 ++ [b])

variable {node? deps} (key : β → α)

/-- Each node is listed after its dependencies. -/
def DependenciesFirst (deps : β → List α) (key : β → α) (l : List β) : Prop :=
  ∀ before b after, l = before ++ b :: after → deps b ⊆ before.map key

omit [DecidableEq α] in
theorem DependenciesFirst.concat {l : List β} {b : β} (h : DependenciesFirst deps key l)
    (hb : deps b ⊆ l.map key) : DependenciesFirst deps key (l ++ [b]) := by
  intro before c after heq
  rcases List.eq_nil_or_concat after with rfl | ⟨after', z, rfl⟩
  · obtain ⟨rfl, hbc⟩ := List.append_inj' heq rfl
    obtain rfl := (List.cons.inj hbc).1
    exact hb
  · rw [List.concat_eq_append, ← List.cons_append, ← List.append_assoc] at heq
    exact h before c after' (List.append_inj' heq rfl).1

/-- What the names of a graph are, and a rank that dependencies lower. -/
structure Ranked (node? : α → Option β) (deps : β → List α) (key : β → α) (nodes : List α)
    (rank : α → Nat) : Prop where
  known : ∀ a ∈ nodes, ∃ b, node? a = some b
  key_eq : ∀ {a b}, node? a = some b → key b = a
  closed : ∀ {a b}, a ∈ nodes → node? a = some b → deps b ⊆ nodes
  lower : ∀ {a b}, a ∈ nodes → node? a = some b → ∀ d ∈ deps b, rank d < rank a

/-- The state of a walk, between two visits. -/
structure Walk (node? : α → Option β) (deps : β → List α) (key : β → α) (nodes : List α)
    (s : List α × List β) : Prop where
  marked : s.2.map key ⊆ s.1
  nodup : (s.2.map key).Nodup
  found : ∀ b ∈ s.2, key b ∈ nodes ∧ node? (key b) = some b
  dependencies : DependenciesFirst deps key s.2

/-- Marked, and not yet listed: the nodes that a visit is inside of. -/
def Pending (s : List α × List β) (a : α) : Prop := a ∈ s.1 ∧ a ∉ s.2.map key

/-- A visit lists a node, keeps what is listed, and is inside of the same nodes after it. -/
structure Collected (s s' : List α × List β) : Prop where
  listed : s.2.map key ⊆ s'.2.map key
  pending : ∀ a, Pending key s' a ↔ Pending key s a

variable {key} {nodes : List α} {rank : α → Nat}

omit [DecidableEq α] in
theorem foldl_collected (key : β → α) {visit : List α × List β → α → List α × List β} {l : List α}
    (P : List α × List β → Prop) (hvisit : ∀ a ∈ l, ∀ s, P s →
      P (visit s a) ∧ Collected key s (visit s a) ∧ a ∈ (visit s a).2.map key) :
    ∀ s, P s → P (l.foldl visit s) ∧ Collected key s (l.foldl visit s)
      ∧ l ⊆ (l.foldl visit s).2.map key := by
  induction l with
  | nil => exact fun s hs => ⟨hs, ⟨fun _ h => h, fun _ => Iff.rfl⟩, List.nil_subset _⟩
  | cons a l ih =>
      intro s hs
      obtain ⟨hp, hc, ha⟩ := hvisit a (List.mem_cons_self ..) s hs
      obtain ⟨hp', hc', hl⟩ :=
        ih (fun b hb => hvisit b (List.mem_cons_of_mem _ hb)) (visit s a) hp
      exact ⟨hp', ⟨fun x hx => hc'.listed (hc.listed hx), fun x => (hc'.pending x).trans (hc.pending x)⟩,
        List.cons_subset.mpr ⟨hc'.listed ha, hl⟩⟩

/-- **A visit lists a node after its dependencies**, where the nodes it is
inside of are of higher rank. -/
theorem collect_collected (hr : Ranked node? deps key nodes rank) :
    ∀ {fuel : Nat} {a : α} {s : List α × List β}, a ∈ nodes → rank a < fuel →
      Walk node? deps key nodes s → (∀ v, Pending key s v → rank a < rank v) →
      Walk node? deps key nodes (collect node? deps fuel s a)
        ∧ Collected key s (collect node? deps fuel s a)
        ∧ a ∈ (collect node? deps fuel s a).2.map key := by
  intro fuel
  induction fuel with
  | zero => intro a s _ hlt; omega
  | succ fuel ih =>
      rintro a ⟨visited, ordered⟩ ha hlt hw hpending
      obtain ⟨b, hb⟩ := hr.known a ha
      rw [collect]
      split_ifs with hseen
      · refine ⟨hw, ⟨fun _ h => h, fun _ => Iff.rfl⟩, ?_⟩
        by_contra hnot
        exact Nat.lt_irrefl _ (hpending a ⟨hseen, hnot⟩)
      · rw [hb]
        dsimp only
        have hfresh : a ∉ ordered.map key := fun h => hseen (hw.marked h)
        -- the walk with `a` marked
        have hw₀ : Walk node? deps key nodes (a :: visited, ordered) :=
          ⟨fun x hx => List.mem_cons_of_mem _ (hw.marked hx), hw.nodup, hw.found, hw.dependencies⟩
        have hpending₀ : ∀ d ∈ deps b, ∀ v, Pending key (a :: visited, ordered) v →
            rank d < rank v := by
          rintro d hd v ⟨hv, hnot⟩
          have hd' := hr.lower ha hb d hd
          rcases List.mem_cons.mp hv with rfl | hv
          · exact hd'
          · exact hd'.trans (hpending v ⟨hv, hnot⟩)
        obtain ⟨⟨hw₁, hp₁⟩, hc₁, hdeps⟩ := foldl_collected key
          (fun s => Walk node? deps key nodes s ∧
            ∀ d ∈ deps b, ∀ v, Pending key s v → rank d < rank v)
          (fun d hd s hs => by
            have hd' := hr.lower ha hb d hd
            obtain ⟨h₁, h₂, h₃⟩ :=
              ih (hr.closed ha hb hd) (by omega) hs.1 (hs.2 d hd)
            exact ⟨⟨h₁, fun e he v hv => hs.2 e he v ((h₂.pending v).mp hv)⟩, h₂, h₃⟩)
          (a :: visited, ordered) ⟨hw₀, hpending₀⟩
        generalize (deps b).foldl (collect node? deps fuel) (a :: visited, ordered) = s₁
          at hw₁ hp₁ hc₁ hdeps
        obtain ⟨ha₁, hnot₁⟩ := (hc₁.pending a).mpr ⟨List.mem_cons_self .., hfresh⟩
        have hkey := hr.key_eq hb
        refine ⟨⟨?_, ?_, ?_, hw₁.dependencies.concat key hdeps⟩, ⟨?_, ?_⟩, ?_⟩
        · rw [List.map_append, List.map_singleton, hkey]
          exact List.append_subset.mpr ⟨hw₁.marked, by simpa using ha₁⟩
        · rw [List.map_append, List.map_singleton, hkey, List.nodup_append]
          exact ⟨hw₁.nodup, List.nodup_singleton _, fun x hx y hy hxy =>
            hnot₁ (by rw [List.mem_singleton] at hy; rwa [← hy, ← hxy])⟩
        · intro c hc
          rcases List.mem_append.mp hc with hc | hc
          · exact hw₁.found c hc
          · rw [List.mem_singleton.mp hc, hkey]
            exact ⟨ha, hb⟩
        · rw [List.map_append]
          exact fun x hx => List.mem_append_left _ (hc₁.listed hx)
        · intro x
          have hx := hc₁.pending x
          unfold Pending at hx ⊢
          simp only [List.map_append, List.map_singleton, hkey, List.mem_append,
            List.mem_cons] at hx ⊢
          by_cases hxa : x = a
          · subst hxa
            simp [hseen]
          · simpa [hxa] using hx
        · rw [List.map_append, List.map_singleton, hkey]
          exact List.mem_append_right _ (List.mem_singleton_self a)

/-- The walk from a list of roots. -/
def collectAll (node? : α → Option β) (deps : β → List α) (fuel : Nat) (roots : List α) : List β :=
  (roots.foldl (collect node? deps fuel) ([], [])).2

/-- **Every root is listed, and everything after its dependencies.** -/
theorem collectAll_walk (hr : Ranked node? deps key nodes rank) {fuel : Nat} {roots : List α}
    (hroots : roots ⊆ nodes) (hfuel : ∀ a ∈ nodes, rank a < fuel) :
    ((collectAll node? deps fuel roots).map key).Nodup
      ∧ roots ⊆ (collectAll node? deps fuel roots).map key
      ∧ (∀ b ∈ collectAll node? deps fuel roots, key b ∈ nodes ∧ node? (key b) = some b)
      ∧ DependenciesFirst deps key (collectAll node? deps fuel roots) := by
  obtain ⟨⟨hw, -⟩, -, hlisted⟩ := foldl_collected key
    (fun s => Walk node? deps key nodes s ∧ ∀ v, ¬ Pending key s v)
    (fun a ha s hs => by
      obtain ⟨h₁, h₂, h₃⟩ := collect_collected hr (hroots ha) (hfuel a (hroots ha)) hs.1
        fun v hv => absurd hv (hs.2 v)
      exact ⟨⟨h₁, fun v hv => hs.2 v ((h₂.pending v).mp hv)⟩, h₂, h₃⟩)
    ([], []) ⟨⟨List.nil_subset _, List.nodup_nil, nofun, fun _ _ _ h => by simp at h⟩,
      fun v hv => nomatch hv.1⟩
  exact ⟨hw.nodup, hlisted, hw.found, hw.dependencies⟩

/-! ### Two graphs of one shape -/

section Related

variable {β' : Type} {R : β → β' → Prop} {node?' : α → Option β'} {deps' : β' → List α}

/-- Two states with the same marks, and related lists. -/
def RelatedStates (R : β → β' → Prop) (s : List α × List β) (s' : List α × List β') : Prop :=
  s.1 = s'.1 ∧ List.Forall₂ R s.2 s'.2

omit [DecidableEq α] in
theorem foldl_related {visit : List α × List β → α → List α × List β}
    {visit' : List α × List β' → α → List α × List β'}
    (h : ∀ s s' a, RelatedStates R s s' → RelatedStates R (visit s a) (visit' s' a)) (l : List α) :
    ∀ s s', RelatedStates R s s' → RelatedStates R (l.foldl visit s) (l.foldl visit' s') := by
  induction l with
  | nil => exact fun _ _ hs => hs
  | cons a l ih => exact fun s s' hs => ih _ _ (h s s' a hs)

theorem collect_related (hnode : ∀ a, Option.Rel R (node? a) (node?' a))
    (hdeps : ∀ b b', R b b' → deps b = deps' b') : ∀ (fuel : Nat) s s' a, RelatedStates R s s' →
      RelatedStates R (collect node? deps fuel s a) (collect node?' deps' fuel s' a) := by
  intro fuel
  induction fuel with
  | zero => exact fun _ _ _ hs => hs
  | succ fuel ih =>
      rintro ⟨visited, ordered⟩ ⟨visited', ordered'⟩ a ⟨hv, ho⟩
      obtain rfl : visited = visited' := hv
      rw [collect, collect]
      split_ifs
      · exact ⟨rfl, ho⟩
      · have hrel := hnode a
        cases hb : node? a with
        | none =>
            rw [hb] at hrel
            cases hb' : node?' a with
            | none => exact ⟨rfl, ho⟩
            | some b' => rw [hb'] at hrel; cases hrel
        | some b =>
            rw [hb] at hrel
            cases hb' : node?' a with
            | none => rw [hb'] at hrel; cases hrel
            | some b' =>
                rw [hb'] at hrel
                cases hrel with
                | some hbb =>
                    obtain ⟨h₁, h₂⟩ := foldl_related ih (deps b) (a :: visited, ordered)
                      (a :: visited, ordered') ⟨rfl, ho⟩
                    dsimp only
                    rw [← hdeps b b' hbb]
                    exact ⟨h₁, List.rel_append h₂ (.cons hbb .nil)⟩

/-- **Graphs of one shape are walked in one order.** -/
theorem collectAll_related (hnode : ∀ a, Option.Rel R (node? a) (node?' a))
    (hdeps : ∀ b b', R b b' → deps b = deps' b') (fuel : Nat) (roots : List α) :
    List.Forall₂ R (collectAll node? deps fuel roots) (collectAll node?' deps' fuel roots) :=
  (foldl_related (collect_related hnode hdeps fuel) roots ([], []) ([], []) ⟨rfl, .nil⟩).2

end Related

end Collect

end DepthFirst
