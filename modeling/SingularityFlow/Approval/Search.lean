/-
# The search for a distinct reviewer of every required group

`unmatchedRequiredAuthorities` searches, for one group after another, a path to
an identity that no group has, and reassigns the identities along it.  Both loops
have their fuel here, and both end before it runs out: a group enters the queue
once, and the path back has no group twice.

The state of a search is described by `Searched`: from every group that was
visited, the predecessors lead back to the first one.  When a search ends without
a free identity, the groups it visited are closed (`Bipartite.Closed`), and that is
what makes the whole matching a maximum one.
-/
import SingularityFlow.Approval.Authority
import SingularityFlow.Lib.Matching

namespace SingularityFlow

open Ecma Bipartite

namespace Approval

/-! ## The loops, with any fuel -/

/-- One round of the loop over the groups. -/
def matchGroup (candidatesOf : Text → List Text) (fuel : Nat) (matching : Matching)
    (initial : Text) : Matching :=
  let found := searchFree candidatesOf matching.byIdentity fuel ⟨[initial], [initial], [], none⟩
  augment found.predecessor fuel found.free matching

def matchGroups (candidatesOf : Text → List Text) (fuel : Nat) (groups : List Text) : Matching :=
  groups.foldl (matchGroup candidatesOf fuel) ⟨[], []⟩

/-- The required groups, each of them once. -/
def requiredGroups (required : List Text) : List Text :=
  (distinct required).insertionSort LeUnits

theorem unmatchedRequiredAuthorities_eq (tables : UnicodeTables) (registry : Registry)
    (configured required : List Text) :
    unmatchedRequiredAuthorities tables registry configured required
      = (requiredGroups required).filter fun id =>
          mapGet (matchGroups (candidates tables registry configured)
            (requiredGroups required).length (requiredGroups required)).byGroup id = none := rfl

/-- The identity of a group. -/
def Matching.assign (matching : Matching) : Text → Option Text := mapGet matching.byGroup

/-- The two maps are inverse to each other. -/
def Matching.Consistent (matching : Matching) : Prop :=
  ∀ i g, mapGet matching.byIdentity i = some g ↔ matching.assign g = some i

/-- The identities of a group, as a set. -/
abbrev edges (candidatesOf : Text → List Text) (id : Text) : Set Text := {i | i ∈ candidatesOf id}

/-! ## The way back -/

variable {candidatesOf : Text → List Text} {groups : List Text} {matching : Matching}
  {initial : Text}

/-- The predecessors lead from a group back to the first one. -/
inductive Trail (candidatesOf : Text → List Text) (assign : Text → Option Text)
    (predecessor : List (Text × Text)) (initial : Text) : Text → List (Text × Text) → Prop
  | start : Trail candidatesOf assign predecessor initial initial []
  | step {g g' j : Text} {path : List (Text × Text)} :
      Trail candidatesOf assign predecessor initial g' path → j ∈ candidatesOf g' →
      mapGet predecessor j = some g' → assign g = some j → g ∉ g' :: path.map Prod.fst →
      Trail candidatesOf assign predecessor initial g ((g', j) :: path)

/-- The trail of a group with a free candidate is an alternating path. -/
theorem Trail.alternating {assign : Text → Option Text} {predecessor : List (Text × Text)}
    {g i : Text} {path : List (Text × Text)}
    (h : Trail candidatesOf assign predecessor initial g path) (hnone : assign initial = none)
    (hi : i ∈ candidatesOf g) : Alternating (edges candidatesOf) assign initial i ((g, i) :: path) := by
  induction h generalizing i with
  | start => exact .last hi hnone
  | step _ hj _ hassign hnot ih => exact .step hi hassign (ih hj) hnot

/-- The predecessors that a trail uses. -/
theorem Trail.predecessors {assign : Text → Option Text} {predecessor : List (Text × Text)}
    {g : Text} {path : List (Text × Text)}
    (h : Trail candidatesOf assign predecessor initial g path) :
    ∀ p ∈ path, mapGet predecessor p.2 = some p.1 := by
  induction h with
  | start => exact fun p hmem => absurd hmem List.not_mem_nil
  | step _ _ hpred _ _ ih => exact List.forall_mem_cons.mpr ⟨hpred, ih⟩

/-- A predecessor that is set for the first time is on no trail. -/
theorem Trail.mapSet {assign : Text → Option Text} {predecessor : List (Text × Text)}
    {g i group : Text} {path : List (Text × Text)}
    (h : Trail candidatesOf assign predecessor initial g path)
    (hnew : mapGet predecessor i = none) :
    Trail candidatesOf assign (mapSet predecessor i group) initial g path := by
  induction h with
  | start => exact .start
  | @step _ _ j _ _ hj hpred hassign hnot ih =>
      have hne : j ≠ i := fun heq => by
        rw [heq, hnew] at hpred
        cases hpred
      exact .step ih hj (by rwa [mapGet_mapSet_of_ne hne]) hassign hnot

/-! ## The state of a search -/

/-- What holds between two rounds of a search. -/
structure Searched (candidatesOf : Text → List Text) (groups : List Text) (matching : Matching)
    (initial : Text) (search : Search) : Prop where
  nodup : search.visited.Nodup
  inside : search.visited ⊆ groups
  queued : search.queue ⊆ search.visited
  /-- Every visited group leads back to the first one. -/
  trail : ∀ g ∈ search.visited, ∃ path,
    Trail candidatesOf matching.assign search.predecessor initial g path
      ∧ path.map Prod.fst ⊆ search.visited ∧ (g :: path.map Prod.fst).Nodup
  predecessor : ∀ i g, mapGet search.predecessor i = some g →
    g ∈ search.visited ∧ i ∈ candidatesOf g
  /-- An identity that was seen belongs to a visited group, or is free. -/
  seen : ∀ i, (mapGet search.predecessor i).isSome →
    search.free = some i ∨ ∃ h ∈ search.visited, matching.assign h = some i
  free : ∀ i, search.free = some i → Free matching.assign i
    ∧ (mapGet search.predecessor i).isSome

theorem searched_start (hinitial : initial ∈ groups) :
    Searched candidatesOf groups matching initial ⟨[initial], [initial], [], none⟩ where
  nodup := List.nodup_singleton _
  inside := fun _ h => List.mem_singleton.mp h ▸ hinitial
  queued := fun _ h => h
  trail g hg := by
    obtain rfl := List.mem_singleton.mp hg
    exact ⟨[], .start, List.nil_subset _, List.nodup_singleton _⟩
  predecessor i g h := by cases h
  seen i h := by cases h
  free i h := by cases h

/-- An identity is seen for the first time. -/
theorem Searched.see {search next : Search} {group identity : Text}
    (hS : Searched candidatesOf groups matching initial search) (hfree : search.free = none)
    (hgroup : group ∈ search.visited) (hidentity : identity ∈ candidatesOf group)
    (hnew : mapGet search.predecessor identity = none)
    (hpredecessor : next.predecessor = mapSet search.predecessor identity group)
    (hvisited : search.visited ⊆ next.visited) (hnodup : next.visited.Nodup)
    (hinside : next.visited ⊆ groups) (hqueued : next.queue ⊆ next.visited)
    (htrail : ∀ g ∈ next.visited, g ∉ search.visited → ∃ path,
      Trail candidatesOf matching.assign next.predecessor initial g path
        ∧ path.map Prod.fst ⊆ next.visited ∧ (g :: path.map Prod.fst).Nodup)
    (howner : (next.free = some identity ∧ Free matching.assign identity)
      ∨ (next.free = none ∧ ∃ h ∈ next.visited, matching.assign h = some identity)) :
    Searched candidatesOf groups matching initial next where
  nodup := hnodup
  inside := hinside
  queued := hqueued
  trail g hg := by
    by_cases hold : g ∈ search.visited
    · obtain ⟨path, hpath, hsub, hpathNodup⟩ := hS.trail g hold
      exact ⟨path, hpredecessor ▸ hpath.mapSet hnew, List.Subset.trans hsub hvisited, hpathNodup⟩
    · exact htrail g hg hold
  predecessor i g h := by
    rw [hpredecessor] at h
    by_cases heq : i = identity
    · subst heq
      rw [mapGet_mapSet_self, Option.some.injEq] at h
      exact h ▸ ⟨hvisited hgroup, hidentity⟩
    · rw [mapGet_mapSet_of_ne heq] at h
      exact ⟨hvisited (hS.predecessor i g h).1, (hS.predecessor i g h).2⟩
  seen i h := by
    rw [hpredecessor] at h
    by_cases heq : i = identity
    · subst heq
      exact howner.imp And.left And.right
    · rw [mapGet_mapSet_of_ne heq] at h
      obtain hsome | ⟨owner, howned, hassign⟩ := hS.seen i h
      · rw [hfree] at hsome
        cases hsome
      · exact .inr ⟨owner, hvisited howned, hassign⟩
  free i h := by
    obtain ⟨hsome, hfreeIdentity⟩ | ⟨hnone, -⟩ := howner
    · obtain rfl := Option.some.inj (hsome.symm.trans h)
      exact ⟨hfreeIdentity, by rw [hpredecessor, mapGet_mapSet_self]; rfl⟩
    · rw [hnone] at h
      cases h

/-- What the loop over the candidates of a group does. -/
structure Scanned (candidatesOf : Text → List Text) (groups : List Text) (matching : Matching)
    (initial : Text) (rest : List Text) (search next : Search) : Prop where
  searched : Searched candidatesOf groups matching initial next
  visited : search.visited ⊆ next.visited
  queue : search.queue ⊆ next.queue
  /-- A group that is visited for the first time enters the queue. -/
  entered : ∀ g ∈ next.visited, g ∈ search.visited ∨ g ∈ next.queue
  count : next.visited.length + search.queue.length
    = search.visited.length + next.queue.length
  /-- Without a free identity, every candidate belongs to a visited group. -/
  owned : next.free = none → ∀ i ∈ rest, ∃ h ∈ next.visited, matching.assign h = some i

theorem scanned_nil {search : Search} (hS : Searched candidatesOf groups matching initial search) :
    Scanned candidatesOf groups matching initial [] search search where
  searched := hS
  visited := fun _ h => h
  queue := fun _ h => h
  entered _ h := .inl h
  count := rfl
  owned _ _ h := absurd h List.not_mem_nil

/-- One candidate that a visited group has, and then the rest of them. -/
theorem Scanned.cons {search middle next : Search} {identity : Text} {rest : List Text}
    (h : Scanned candidatesOf groups matching initial rest middle next)
    (hvisited : search.visited ⊆ middle.visited) (hqueue : search.queue ⊆ middle.queue)
    (hentered : ∀ g ∈ middle.visited, g ∈ search.visited ∨ g ∈ middle.queue)
    (hcount : middle.visited.length + search.queue.length
      = search.visited.length + middle.queue.length)
    (howned : ∃ h ∈ middle.visited, matching.assign h = some identity) :
    Scanned candidatesOf groups matching initial (identity :: rest) search next where
  searched := h.searched
  visited := List.Subset.trans hvisited h.visited
  queue := List.Subset.trans hqueue h.queue
  entered g hg := by
    obtain hmiddle | hnext := h.entered g hg
    · exact (hentered g hmiddle).imp_right (h.queue ·)
    · exact .inr hnext
  count := by
    have := h.count
    omega
  owned hnone := by
    obtain ⟨owner, hmem, hassign⟩ := howned
    exact List.forall_mem_cons.mpr ⟨⟨owner, h.visited hmem, hassign⟩, h.owned hnone⟩

theorem scanCandidates_scanned (hM : Matches (edges candidatesOf) groups matching.assign)
    (hconsistent : matching.Consistent) {group : Text} (rest : List Text) :
    ∀ search : Search, Searched candidatesOf groups matching initial search →
      search.free = none → group ∈ search.visited → rest ⊆ candidatesOf group →
      Scanned candidatesOf groups matching initial rest search
        (scanCandidates matching.byIdentity group search rest) := by
  induction rest with
  | nil => exact fun search hS _ _ _ => scanned_nil hS
  | cons identity rest ih =>
      intro search hS hfree hgroup hsub
      obtain ⟨hidentity, hrest⟩ := List.cons_subset.mp hsub
      rw [scanCandidates]
      by_cases hseen : (mapGet search.predecessor identity).isSome = true
      · rw [if_pos hseen]
        have howned : ∃ h ∈ search.visited, matching.assign h = some identity :=
          (hS.seen identity hseen).resolve_left (by simp [hfree])
        exact (ih search hS hfree hgroup hrest).cons (fun _ h => h) (fun _ h => h)
          (fun _ h => .inl h) rfl howned
      rw [if_neg hseen]
      have hnew : mapGet search.predecessor identity = none := by simpa using hseen
      cases hget : mapGet matching.byIdentity identity with
      | none =>
          have hfreeIdentity : Free matching.assign identity := by
            intro g hg
            rw [← hconsistent, hget] at hg
            cases hg
          exact {
            searched := hS.see hfree hgroup hidentity hnew rfl (fun _ h => h) hS.nodup hS.inside
              hS.queued (fun g hg hold => absurd hg hold) (.inl ⟨rfl, hfreeIdentity⟩)
            visited := fun _ h => h
            queue := fun _ h => h
            entered := fun _ h => .inl h
            count := rfl
            owned := fun h => by cases h }
      | some assigned =>
          have hassign : matching.assign assigned = some identity :=
            (hconsistent identity assigned).mp hget
          dsimp only
          by_cases hmem : assigned ∈ search.visited
          · rw [if_pos hmem]
            have hnext : Searched candidatesOf groups matching initial
                { search with predecessor := mapSet search.predecessor identity group } :=
              hS.see hfree hgroup hidentity hnew rfl (fun _ h => h) hS.nodup hS.inside hS.queued
                (fun g hg hold => absurd hg hold) (.inr ⟨hfree, assigned, hmem, hassign⟩)
            exact (ih _ hnext hfree hgroup hrest).cons (fun _ h => h) (fun _ h => h)
              (fun _ h => .inl h) rfl ⟨assigned, hmem, hassign⟩
          · rw [if_neg hmem]
            obtain ⟨path, hpath, hpathSub, hpathNodup⟩ := hS.trail group hgroup
            have hfresh : assigned ∉ group :: path.map Prod.fst := fun hin =>
              hmem ((List.mem_cons.mp hin).elim (· ▸ hgroup) (hpathSub ·))
            have hhead : assigned ∈ assigned :: search.visited := List.mem_cons_self
            have hqueued : search.queue ++ [assigned] ⊆ assigned :: search.visited :=
              List.append_subset.mpr ⟨fun _ h => List.mem_cons_of_mem _ (hS.queued h),
                fun _ h => List.mem_singleton.mp h ▸ hhead⟩
            have htrail : ∀ g ∈ assigned :: search.visited, g ∉ search.visited → ∃ path,
                Trail candidatesOf matching.assign (mapSet search.predecessor identity group)
                  initial g path
                  ∧ path.map Prod.fst ⊆ assigned :: search.visited
                  ∧ (g :: path.map Prod.fst).Nodup := by
              intro g hg hold
              obtain rfl := (List.mem_cons.mp hg).resolve_right hold
              refine ⟨(group, identity) :: path,
                .step (hpath.mapSet hnew) hidentity (mapGet_mapSet_self _ _ _) hassign hfresh,
                ?_, List.nodup_cons.mpr ⟨hfresh, hpathNodup⟩⟩
              exact List.cons_subset.mpr ⟨List.mem_cons_of_mem _ hgroup,
                fun _ h => List.mem_cons_of_mem _ (hpathSub h)⟩
            have hnext : Searched candidatesOf groups matching initial
                { search with
                  predecessor := mapSet search.predecessor identity group
                  visited := assigned :: search.visited
                  queue := search.queue ++ [assigned] } :=
              hS.see hfree hgroup hidentity hnew rfl (List.subset_cons_self _ _)
                (List.nodup_cons.mpr ⟨hmem, hS.nodup⟩)
                (List.cons_subset.mpr ⟨hM.inside hassign, hS.inside⟩) hqueued htrail
                (.inr ⟨hfree, assigned, hhead, hassign⟩)
            refine (ih _ hnext hfree (List.mem_cons_of_mem _ hgroup) hrest).cons
              (List.subset_cons_self _ _) (List.subset_append_left _ _) ?_ ?_
              ⟨assigned, hhead, hassign⟩
            · intro g hg
              obtain rfl | hg := List.mem_cons.mp hg
              · exact .inr (List.mem_append_right _ List.mem_cons_self)
              · exact .inl hg
            · simp only [List.length_cons, List.length_append, List.length_nil]
              omega

/-! ## The loop over the queue -/

/-- The condition of the loop over the queue is false. -/
def Search.ended (search : Search) : Bool := search.free.isSome || search.queue.isEmpty

/-- The groups that left the queue have all their candidates among the visited. -/
def Search.Expanded (candidatesOf : Text → List Text) (matching : Matching) (search : Search) :
    Prop :=
  search.free = none → ∀ g ∈ search.visited, g ∉ search.queue → ∀ i ∈ candidatesOf g,
    ∃ h ∈ search.visited, matching.assign h = some i

/-- One group leaves the queue. -/
theorem Searched.dequeue {search : Search} {group : Text} {queue : List Text}
    (hS : Searched candidatesOf groups matching initial search)
    (hqueue : search.queue = group :: queue) :
    Searched candidatesOf groups matching initial { search with queue } where
  nodup := hS.nodup
  inside := hS.inside
  queued := fun _ h => hS.queued (hqueue ▸ List.mem_cons_of_mem _ h)
  trail := hS.trail
  predecessor := hS.predecessor
  seen := hS.seen
  free := hS.free

theorem Scanned.expanded {search next : Search} {group : Text} {queue : List Text}
    (h : Scanned candidatesOf groups matching initial (candidatesOf group)
      { search with queue } next)
    (hqueue : search.queue = group :: queue) (hfree : search.free = none)
    (hE : search.Expanded candidatesOf matching) : next.Expanded candidatesOf matching := by
  intro hnone g hg hgnot i hi
  by_cases heq : g = group
  · subst heq
    exact h.owned hnone i hi
  · have hold : g ∈ search.visited := (h.entered g hg).resolve_right hgnot
    have hout : g ∉ search.queue := by
      rw [hqueue, List.mem_cons, not_or]
      exact ⟨heq, fun hin => hgnot (h.queue hin)⟩
    obtain ⟨owner, hmem, hassign⟩ := hE hfree g hold hout i hi
    exact ⟨owner, h.visited hmem, hassign⟩

/-- **The search** ends: with a free identity, or with an empty queue. -/
theorem searchFree_ends (hM : Matches (edges candidatesOf) groups matching.assign)
    (hconsistent : matching.Consistent) (fuel : Nat) :
    ∀ search : Search, Searched candidatesOf groups matching initial search →
      search.Expanded candidatesOf matching →
      groups.length + search.queue.length ≤ fuel + search.visited.length →
      Searched candidatesOf groups matching initial
          (searchFree candidatesOf matching.byIdentity fuel search)
        ∧ (searchFree candidatesOf matching.byIdentity fuel search).Expanded candidatesOf matching
        ∧ search.visited ⊆ (searchFree candidatesOf matching.byIdentity fuel search).visited
        ∧ (searchFree candidatesOf matching.byIdentity fuel search).ended = true := by
  induction fuel with
  | zero =>
      intro search hS hE hfuel
      -- no more groups are visited than there are, so the queue is empty
      have hle : search.visited.length ≤ groups.length := (hS.nodup.subperm hS.inside).length_le
      have hempty : search.queue = [] := List.length_eq_zero_iff.mp (by omega)
      exact ⟨hS, hE, fun _ h => h, by simp [searchFree, Search.ended, hempty]⟩
  | succ fuel ih =>
      intro search hS hE hfuel
      rw [searchFree]
      split
      · rename_i group queue hfree hqueue
        have hgroup : group ∈ search.visited := hS.queued (hqueue ▸ List.mem_cons_self)
        have hscan := scanCandidates_scanned hM hconsistent (candidatesOf group)
          { search with queue } (hS.dequeue hqueue) hfree hgroup (fun _ h => h)
        have hcount := hscan.count
        dsimp only at hcount
        have hlength : search.queue.length = queue.length + 1 := by rw [hqueue, List.length_cons]
        obtain ⟨hsearched, hexpanded, hvisited, hended⟩ :=
          ih _ hscan.searched (hscan.expanded hqueue hfree hE) (by omega)
        exact ⟨hsearched, hexpanded, List.Subset.trans hscan.visited hvisited, hended⟩
      · rename_i hstop
        refine ⟨hS, hE, fun _ h => h, ?_⟩
        rw [Search.ended]
        cases hfree : search.free with
        | some free => rfl
        | none =>
            cases hqueue : search.queue with
            | nil => rfl
            | cons group queue => exact absurd hqueue (hstop group queue hfree)

/-- A search without a free identity leaves a closed set of groups. -/
theorem Search.Expanded.closed {search : Search} (hE : search.Expanded candidatesOf matching)
    (hended : search.ended = true) (hnone : search.free = none) :
    Closed (edges candidatesOf) matching.assign (· ∈ search.visited) := by
  have hempty : search.queue = [] := by simpa [Search.ended, hnone] using hended
  exact fun g hg i hi => hE hnone g hg (hempty ▸ List.not_mem_nil) i hi

/-! ## The loop back along the path -/

/-- The variable `free` is `null` when the fuel of the loop is used up, or before. -/
def augmentEnds (predecessor : List (Text × Text)) : Nat → Option Text → Matching → Bool
  | _, none, _ => true
  | 0, some _, _ => false
  | fuel + 1, some free, matching =>
      match mapGet predecessor free with
      | none => false
      | some group =>
          augmentEnds predecessor fuel (mapGet matching.byGroup group)
            ⟨mapSet matching.byIdentity free group, mapSet matching.byGroup group free⟩

/-- The identity is given to the group. -/
def Matching.give (matching : Matching) (group identity : Text) : Matching :=
  ⟨mapSet matching.byIdentity identity group, mapSet matching.byGroup group identity⟩

theorem assign_give (matching : Matching) (group identity : Text) :
    (matching.give group identity).assign
      = Function.update matching.assign group (some identity) := by
  funext g
  by_cases heq : g = group
  · rw [heq, Function.update_self]
    exact mapGet_mapSet_self _ _ _
  · rw [Function.update_of_ne heq]
    exact mapGet_mapSet_of_ne heq

/-- The identities of a path are given to its groups. -/
def Matching.giveAll (matching : Matching) (path : List (Text × Text)) : Matching :=
  path.foldl (fun matching p => matching.give p.1 p.2) matching

theorem assign_giveAll (matching : Matching) (path : List (Text × Text)) :
    (matching.giveAll path).assign = reassign matching.assign path := by
  induction path generalizing matching with
  | nil => rfl
  | cons p path ih =>
      rw [Matching.giveAll, List.foldl_cons, reassign, ← assign_give]
      exact ih _

/-- The loop follows the path to its end. -/
theorem augment_eq {predecessor path : List (Text × Text)} {i : Text}
    (hpath : Alternating (edges candidatesOf) matching.assign initial i path)
    (hpredecessor : ∀ p ∈ path, mapGet predecessor p.2 = some p.1) :
    ∀ fuel, path.length ≤ fuel →
      augment predecessor fuel (some i) matching = matching.giveAll path
        ∧ augmentEnds predecessor fuel (some i) matching = true := by
  induction path generalizing matching i with
  | nil => cases hpath
  | cons p path ih =>
      obtain ⟨hp, hrest⟩ := List.forall_mem_cons.mp hpredecessor
      intro fuel hfuel
      obtain ⟨fuel, rfl⟩ : ∃ n, fuel = n + 1 :=
        Nat.exists_eq_succ_of_ne_zero (by rw [List.length_cons] at hfuel; omega)
      cases hpath with
      | last _ hnone =>
          have hget : mapGet matching.byGroup initial = none := hnone
          simp only [augment, augmentEnds, hp, hget]
          cases fuel with
          | zero => exact ⟨rfl, trivial⟩
          | succ fuel => exact ⟨rfl, trivial⟩
      | @step g _ j _ _ hassign hpath hnot =>
          have hget : mapGet matching.byGroup g = some j := hassign
          simp only [augment, augmentEnds, hp, hget]
          have hnext := hpath.update hnot (some i)
          rw [← assign_give] at hnext
          exact ih hnext hrest fuel (by simpa using hfuel)

/-- The maps are inverse to each other, but for an identity that is being given out. -/
def Matching.ConsistentBut (matching : Matching) (identity : Text) : Prop :=
  ∀ i, i ≠ identity → ∀ g, mapGet matching.byIdentity i = some g ↔ matching.assign g = some i

theorem byIdentity_give_of_ne {group identity i : Text} (hne : i ≠ identity) :
    mapGet (matching.give group identity).byIdentity i = mapGet matching.byIdentity i :=
  mapGet_mapSet_of_ne hne

/-- Giving an identity away leaves the one that the group had before. -/
theorem consistentBut_give {group identity : Text} (hfree : Free matching.assign identity)
    (hC : matching.ConsistentBut identity) :
    ∀ i, matching.assign group ≠ some i →
      ∀ g, mapGet (matching.give group identity).byIdentity i = some g
        ↔ (matching.give group identity).assign g = some i := by
  intro i hi g
  rw [assign_give]
  by_cases heq : i = identity
  · subst heq
    rw [show mapGet (matching.give group i).byIdentity i = some group from
      mapGet_mapSet_self _ _ _, Option.some.injEq]
    constructor
    · rintro rfl
      exact Function.update_self _ _ _
    · intro h
      by_contra hne
      rw [Function.update_of_ne (Ne.symm hne)] at h
      exact hfree g h
  · rw [byIdentity_give_of_ne heq, hC i heq]
    by_cases hgroup : g = group
    · subst hgroup
      rw [Function.update_self, Option.some.injEq]
      exact ⟨fun h => absurd h hi, fun h => absurd h.symm heq⟩
    · rw [Function.update_of_ne hgroup]

/-- At the end of the path the maps are inverse to each other again. -/
theorem consistent_giveAll {path : List (Text × Text)} {i : Text}
    (hpath : Alternating (edges candidatesOf) matching.assign initial i path)
    (hM : Matches (edges candidatesOf) groups matching.assign)
    (hgroups : ∀ p ∈ path, p.1 ∈ groups) (hfree : Free matching.assign i)
    (hC : matching.ConsistentBut i) : (matching.giveAll path).Consistent := by
  induction path generalizing matching i with
  | nil => cases hpath
  | cons p path ih =>
      obtain ⟨hp, hrest⟩ := List.forall_mem_cons.mp hgroups
      cases hpath with
      | last _ hnone =>
          exact fun j g => consistentBut_give hfree hC j (by simp [hnone]) g
      | @step g _ j _ hi hassign hpath hnot =>
          have hnext := hpath.update hnot (some i)
          have hM' := hM.update hp hi hfree
          have hfree' := free_update hM hassign hfree
          rw [← assign_give] at hnext hM' hfree'
          exact ih hnext hM' hrest hfree' fun k hk =>
            consistentBut_give hfree hC k (fun h => hk (Option.some.inj (h.symm.trans hassign)))

/-! ## The rounds -/

/-- Both loops of a round end. -/
def RoundEnds (candidatesOf : Text → List Text) (fuel : Nat) (matching : Matching)
    (initial : Text) : Prop :=
  let found := searchFree candidatesOf matching.byIdentity fuel ⟨[initial], [initial], [], none⟩
  found.ended = true ∧ augmentEnds found.predecessor fuel found.free matching = true

/-- The matching after the rounds of some groups. -/
structure Matched (candidatesOf : Text → List Text) (groups : List Text) (matching : Matching) :
    Prop where
  legal : Matches (edges candidatesOf) groups matching.assign
  consistent : matching.Consistent
  /-- A closed set contains the groups that were left without an identity. -/
  maximal : ∃ R, Closed (edges candidatesOf) matching.assign R
    ∧ ∀ g ∈ groups, matching.assign g = none → R g

theorem matched_nil : Matched candidatesOf [] ⟨[], []⟩ where
  legal := matches_none
  consistent i g := by
    constructor
    · rintro ⟨⟩
    · rintro ⟨⟩
  maximal := ⟨fun _ => False, fun _ h => h.elim, fun _ h => absurd h List.not_mem_nil⟩

/-- **One round** ends, and keeps the matching a maximum one. -/
theorem Matched.round (hM : Matched candidatesOf groups matching) (hnew : initial ∉ groups)
    {fuel : Nat} (hfuel : groups.length + 1 ≤ fuel) :
    RoundEnds candidatesOf fuel matching initial
      ∧ Matched candidatesOf (groups ++ [initial])
        (matchGroup candidatesOf fuel matching initial) := by
  have hmatches := hM.legal.mono (List.subset_append_left groups [initial])
  have hinitial : initial ∈ groups ++ [initial] := List.mem_append_right _ List.mem_cons_self
  have hnone : matching.assign initial = none := by
    rw [Option.eq_none_iff_forall_ne_some]
    exact fun i h => hnew (hM.legal.inside h)
  obtain ⟨R, hR, hleft⟩ := hM.maximal
  obtain ⟨hS, hE, hvisited, hended⟩ := searchFree_ends hmatches hM.consistent fuel
    ⟨[initial], [initial], [], none⟩ (searched_start hinitial)
    (fun _ g hg hnot => absurd hg hnot)
    (by simp only [List.length_append, List.length_cons, List.length_nil]; omega)
  unfold RoundEnds matchGroup
  generalize searchFree candidatesOf matching.byIdentity fuel ⟨[initial], [initial], [], none⟩
    = found at *
  cases hfree : found.free with
  | none =>
      have haugment : augment found.predecessor fuel none matching = matching := by
        cases fuel <;> rfl
      have hends : augmentEnds found.predecessor fuel none matching = true := by
        cases fuel <;> rfl
      simp only [hfree, haugment]
      refine ⟨⟨hended, hends⟩, ?_⟩
      -- the groups that were visited join the closed set
      refine ⟨hmatches, hM.consistent, _, hR.union (hE.closed hended hfree), fun g hg hgnone => ?_⟩
      obtain hold | hlast := List.mem_append.mp hg
      · exact .inl (hleft g hold hgnone)
      · exact .inr (hvisited hlast)
  | some i =>
      obtain ⟨hfreeIdentity, hseen⟩ := hS.free i hfree
      obtain ⟨g, hg⟩ := Option.isSome_iff_exists.mp hseen
      obtain ⟨hvisitedGroup, hi⟩ := hS.predecessor i g hg
      obtain ⟨path, htrail, hsub, hnodup⟩ := hS.trail g hvisitedGroup
      have hpath := htrail.alternating hnone hi
      have hpredecessor : ∀ p ∈ (g, i) :: path, mapGet found.predecessor p.2 = some p.1 :=
        List.forall_mem_cons.mpr ⟨hg, htrail.predecessors⟩
      have hvisitedPath : g :: path.map Prod.fst ⊆ found.visited :=
        List.cons_subset.mpr ⟨hvisitedGroup, hsub⟩
      have hgroups : ∀ p ∈ (g, i) :: path, p.1 ∈ groups ++ [initial] := fun p hp =>
        hS.inside (hvisitedPath (List.mem_map_of_mem (f := Prod.fst) hp))
      have hlength : ((g, i) :: path).length ≤ fuel := by
        have hle := (hnodup.subperm (List.Subset.trans hvisitedPath hS.inside)).length_le
        simp only [List.length_cons, List.length_map, List.length_append, List.length_nil] at hle ⊢
        omega
      obtain ⟨haugment, hends⟩ := augment_eq hpath hpredecessor fuel hlength
      obtain ⟨hmatches', hunassigned, hclosed⟩ := hpath.reassign hmatches hfreeIdentity hgroups
      simp only [hfree, haugment]
      refine ⟨⟨hended, hends⟩, ?_⟩
      refine ⟨assign_giveAll _ _ ▸ hmatches', consistent_giveAll hpath hmatches hgroups hfreeIdentity
        (fun j _ => hM.consistent j), R, assign_giveAll _ _ ▸ hclosed R hR, fun h hh hnone => ?_⟩
      rw [assign_giveAll, hunassigned] at hnone
      obtain hold | hlast := List.mem_append.mp hh
      · exact hleft h hold hnone.1
      · exact absurd (List.mem_singleton.mp hlast) hnone.2

/-- The rounds of any groups, each of them once. -/
theorem matched_matchGroups {fuel : Nat} (groups : List Text) :
    groups.Nodup → groups.length ≤ fuel →
      Matched candidatesOf groups (matchGroups candidatesOf fuel groups) := by
  induction groups using List.reverseRecOn with
  | nil => exact fun _ _ => matched_nil
  | append_singleton groups initial ih =>
      intro hnodup hfuel
      obtain ⟨hgroups, -, hdisjoint⟩ := List.nodup_append.mp hnodup
      have hnew : initial ∉ groups := fun hin => hdisjoint _ hin _ List.mem_cons_self rfl
      rw [List.length_append, List.length_singleton] at hfuel
      rw [matchGroups, List.foldl_append]
      exact ((ih hgroups (by omega)).round hnew hfuel).2

/-- Every round ends. -/
theorem rounds_end {fuel : Nat} (hnodup : groups.Nodup) (hfuel : groups.length ≤ fuel)
    {before after : List Text} (hgroups : groups = before ++ initial :: after) :
    RoundEnds candidatesOf fuel (matchGroups candidatesOf fuel before) initial := by
  rw [hgroups] at hnodup hfuel
  obtain ⟨hbefore, -, hdisjoint⟩ := List.nodup_append.mp hnodup
  rw [List.length_append, List.length_cons] at hfuel
  have hnew : initial ∉ before := fun hin => hdisjoint _ hin _ List.mem_cons_self rfl
  exact ((matched_matchGroups before hbefore (by omega)).round hnew (by omega)).1

theorem requiredGroups_nodup (required : List Text) : (requiredGroups required).Nodup :=
  ((List.perm_insertionSort _ _).nodup_iff).mpr (nodup_distinct required)

theorem mem_requiredGroups {required : List Text} {id : Text} :
    id ∈ requiredGroups required ↔ id ∈ required :=
  ((List.perm_insertionSort _ _).mem_iff).trans mem_distinct

end Approval

end SingularityFlow
