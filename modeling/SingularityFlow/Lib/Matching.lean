/-
# Matchings and augmenting paths

A matching gives each of some groups at most one candidate, and no candidate to
two groups.  An alternating path leads from a candidate that no group has to a
group that has none; giving its candidates out anew matches one group more.

Where no such path starts from a group, the groups that were reached have no
candidates but their own: they are `Closed`.  A closed set keeps its candidates
under every later augmentation, since an alternating path cannot enter it.  So one
closed set that contains all groups without a candidate is carried along, and
shows at the end, by counting, that no matching leaves fewer groups without one
(`unmatched_le`).
-/
import Mathlib.Data.Finset.Card
import Mathlib.Logic.Function.Basic

namespace Bipartite

variable {γ ι : Type} [DecidableEq γ]

/-! ## Matchings -/

/-- Each group has a candidate of its own, or none. -/
structure Matches (candidates : γ → Set ι) (groups : List γ) (assign : γ → Option ι) : Prop where
  edge : ∀ {g i}, assign g = some i → i ∈ candidates g
  inside : ∀ {g i}, assign g = some i → g ∈ groups
  injective : ∀ {g h i}, assign g = some i → assign h = some i → g = h

/-- No group has the candidate. -/
def Free (assign : γ → Option ι) (i : ι) : Prop := ∀ g, assign g ≠ some i

/-- The groups of the set have all their candidates among them. -/
def Closed (candidates : γ → Set ι) (assign : γ → Option ι) (R : γ → Prop) : Prop :=
  ∀ g, R g → ∀ i ∈ candidates g, ∃ h, R h ∧ assign h = some i

variable {candidates : γ → Set ι} {groups : List γ} {assign : γ → Option ι}

omit [DecidableEq γ] in
theorem matches_none : Matches candidates groups fun _ => none where
  edge h := by cases h
  inside h := by cases h
  injective h := by cases h

omit [DecidableEq γ] in
theorem Matches.mono {groups' : List γ} (hM : Matches candidates groups assign)
    (hsub : groups ⊆ groups') : Matches candidates groups' assign where
  edge := hM.edge
  inside h := hsub (hM.inside h)
  injective := hM.injective

/-- A free candidate is given to a group. -/
theorem Matches.update (hM : Matches candidates groups assign) {g : γ} {i : ι} (hg : g ∈ groups)
    (hi : i ∈ candidates g) (hfree : Free assign i) :
    Matches candidates groups (Function.update assign g (some i)) := by
  have hcases : ∀ {h j}, Function.update assign g (some i) h = some j →
      (h = g ∧ j = i) ∨ (h ≠ g ∧ assign h = some j) := by
    intro h j hj
    by_cases heq : h = g
    · rw [heq, Function.update_self] at hj
      exact .inl ⟨heq, (Option.some.inj hj).symm⟩
    · rw [Function.update_of_ne heq] at hj
      exact .inr ⟨heq, hj⟩
  constructor
  · intro h j hj
    rcases hcases hj with ⟨rfl, rfl⟩ | ⟨-, hj⟩
    · exact hi
    · exact hM.edge hj
  · intro h j hj
    rcases hcases hj with ⟨rfl, -⟩ | ⟨-, hj⟩
    · exact hg
    · exact hM.inside hj
  · intro h h' j hj hj'
    rcases hcases hj with ⟨rfl, rfl⟩ | ⟨-, hold⟩
    · rcases hcases hj' with ⟨rfl, -⟩ | ⟨-, hold'⟩
      · rfl
      · exact absurd hold' (hfree h')
    · rcases hcases hj' with ⟨-, rfl⟩ | ⟨-, hold'⟩
      · exact absurd hold (hfree h)
      · exact hM.injective hold hold'

/-- The candidate that the group had before is free. -/
theorem free_update {g : γ} {i j : ι} (hM : Matches candidates groups assign)
    (hj : assign g = some j) (hfree : Free assign i) :
    Free (Function.update assign g (some i)) j := by
  intro h hh
  by_cases heq : h = g
  · rw [heq, Function.update_self] at hh
    exact hfree g (hj.trans hh.symm)
  · rw [Function.update_of_ne heq] at hh
    exact heq (hM.injective hh hj)

omit [DecidableEq γ] in
/-- No group of a closed set has a free candidate. -/
theorem Closed.not_of_free {R : γ → Prop} (hR : Closed candidates assign R) {g : γ} {i : ι}
    (hi : i ∈ candidates g) (hfree : Free assign i) : ¬ R g := by
  intro hg
  obtain ⟨h, -, hh⟩ := hR g hg i hi
  exact hfree h hh

theorem Closed.update {R : γ → Prop} (hR : Closed candidates assign R) {g : γ} (hg : ¬ R g)
    (i : ι) : Closed candidates (Function.update assign g (some i)) R := by
  intro h hh j hj
  obtain ⟨h', hR', hassign⟩ := hR h hh j hj
  have hne : h' ≠ g := fun heq => hg (heq ▸ hR')
  exact ⟨h', hR', by rw [Function.update_of_ne hne, hassign]⟩

omit [DecidableEq γ] in
theorem Closed.union {R S : γ → Prop} (hR : Closed candidates assign R)
    (hS : Closed candidates assign S) : Closed candidates assign fun g => R g ∨ S g := by
  rintro g (hg | hg) i hi
  · obtain ⟨h, hh, hassign⟩ := hR g hg i hi
    exact ⟨h, .inl hh, hassign⟩
  · obtain ⟨h, hh, hassign⟩ := hS g hg i hi
    exact ⟨h, .inr hh, hassign⟩

/-! ## Augmenting -/

/-- A path from a candidate to a group without one: each group on it takes the
candidate before it, and gives its own away. -/
inductive Alternating (candidates : γ → Set ι) (assign : γ → Option ι) (initial : γ) :
    ι → List (γ × ι) → Prop
  | last {i : ι} : i ∈ candidates initial → assign initial = none →
      Alternating candidates assign initial i [(initial, i)]
  | step {g : γ} {i j : ι} {path : List (γ × ι)} : i ∈ candidates g → assign g = some j →
      Alternating candidates assign initial j path → g ∉ path.map Prod.fst →
      Alternating candidates assign initial i ((g, i) :: path)

/-- The candidates of the path are given out anew. -/
def reassign (assign : γ → Option ι) : List (γ × ι) → γ → Option ι
  | [] => assign
  | (g, i) :: path => reassign (Function.update assign g (some i)) path

/-- A path does not see what groups off the path have. -/
theorem Alternating.update {initial g : γ} {i : ι} {path : List (γ × ι)}
    (h : Alternating candidates assign initial i path) (hg : g ∉ path.map Prod.fst)
    (value : Option ι) :
    Alternating candidates (Function.update assign g value) initial i path := by
  induction h with
  | last hi hnone =>
      refine .last hi ?_
      rwa [Function.update_of_ne (fun heq => hg (by simp [heq]))]
  | step hi hj _ hnot ih =>
      rw [List.map_cons, List.mem_cons, not_or] at hg
      exact .step hi (by rwa [Function.update_of_ne (Ne.symm hg.1)]) (ih hg.2) hnot

/-- **Augmenting** along a path matches its last group, and no other group less;
what is closed remains closed. -/
theorem Alternating.reassign {initial : γ} {i : ι} {path : List (γ × ι)}
    (h : Alternating candidates assign initial i path) (hM : Matches candidates groups assign)
    (hfree : Free assign i) (hgroups : ∀ p ∈ path, p.1 ∈ groups) :
    Matches candidates groups (reassign assign path)
      ∧ (∀ g, reassign assign path g = none ↔ assign g = none ∧ g ≠ initial)
      ∧ ∀ R, Closed candidates assign R → Closed candidates (Bipartite.reassign assign path) R := by
  induction path generalizing assign i with
  | nil => cases h
  | cons p path ih =>
      obtain ⟨hp, hpath⟩ := List.forall_mem_cons.mp hgroups
      cases h with
      | last hi hnone =>
          refine ⟨hM.update hp hi hfree, fun g => ?_, fun R hR => hR.update (hR.not_of_free hi hfree) _⟩
          rw [Bipartite.reassign, Bipartite.reassign]
          by_cases heq : g = initial
          · simp [heq]
          · simp [heq]
      | @step g _ j _ hi hj hrest hnot =>
          obtain ⟨hmatches, hnone, hclosed⟩ := ih (hrest.update hnot (some i))
            (hM.update hp hi hfree) (free_update hM hj hfree) hpath
          refine ⟨hmatches, fun h => ?_, fun R hR => hclosed R (hR.update (hR.not_of_free hi hfree) _)⟩
          rw [Bipartite.reassign, hnone]
          by_cases heq : h = g
          · simp [heq, hj]
          · simp [Function.update_of_ne heq]

/-! ## Maximum matchings -/

omit [DecidableEq γ] in
/-- The groups without a candidate. -/
def unmatched (groups : List γ) (assign : γ → Option ι) : List γ :=
  groups.filter fun g => (assign g).isNone

/-- **Maximality.**  Where a closed set contains every group without a candidate,
no matching leaves fewer groups without one. -/
theorem unmatched_le (hM : Matches candidates groups assign) (hnodup : groups.Nodup)
    {R : γ → Prop} (hR : Closed candidates assign R)
    (hleft : ∀ g ∈ groups, assign g = none → R g) {other : γ → Option ι}
    (hother : Matches candidates groups other) :
    (unmatched groups assign).length ≤ (unmatched groups other).length := by
  classical
  let inR := groups.toFinset.filter R
  let served := fun f : γ → Option ι => (inR.filter fun g => f g ≠ none).card
  -- the candidates that the other matching gives to the set belong to groups of the set here
  have hserved : served other ≤ served assign := by
    have hpartner : ∀ g, g ∈ inR.filter (fun g => other g ≠ none) →
        ∃ h, R h ∧ h ∈ groups ∧ assign h = other g := by
      intro g hg
      rw [Finset.mem_filter, Finset.mem_filter] at hg
      obtain ⟨i, hi⟩ := Option.ne_none_iff_exists'.mp hg.2
      obtain ⟨h, hh, hassign⟩ := hR g hg.1.2 i (hother.edge hi)
      exact ⟨h, hh, hM.inside hassign, by rw [hassign, hi]⟩
    choose! partner hpartner using hpartner
    refine Finset.card_le_card_of_injOn partner ?_ ?_
    · intro g hg
      obtain ⟨hin, hgroups, hsame⟩ := hpartner g hg
      have hsome := (Finset.mem_filter.mp hg).2
      exact Finset.mem_filter.mpr
        ⟨Finset.mem_filter.mpr ⟨List.mem_toFinset.mpr hgroups, hin⟩, hsame ▸ hsome⟩
    · intro g hg g' hg' heq
      obtain ⟨i, hi⟩ := Option.ne_none_iff_exists'.mp (Finset.mem_filter.mp hg).2
      have hi' : other g' = some i := by
        rw [← (hpartner g' hg').2.2, ← heq, (hpartner g hg).2.2, hi]
      exact hother.injective hi hi'
  have hlength : ∀ f : γ → Option ι, (unmatched groups f).length
      = (groups.toFinset.filter fun g => f g = none).card := by
    intro f
    rw [unmatched, ← List.toFinset_card_of_nodup (hnodup.filter _), List.toFinset_filter]
    simp
  have hhere : (groups.toFinset.filter fun g => assign g = none).card
      = (inR.filter fun g => assign g = none).card := by
    congr 1
    ext g
    simp only [inR, Finset.mem_filter, List.mem_toFinset]
    exact ⟨fun h => ⟨⟨h.1, hleft g h.1 h.2⟩, h.2⟩, fun h => ⟨h.1.1, h.2⟩⟩
  have hthere : (inR.filter fun g => other g = none).card
      ≤ (groups.toFinset.filter fun g => other g = none).card :=
    Finset.card_le_card (Finset.filter_subset_filter _ (Finset.filter_subset _ _))
  have hsplit : ∀ f : γ → Option ι,
      (inR.filter fun g => f g = none).card + served f = inR.card := fun f =>
    Finset.card_filter_add_card_filter_not _
  have := hsplit assign
  have := hsplit other
  rw [hlength, hlength, hhere]
  omega

end Bipartite
