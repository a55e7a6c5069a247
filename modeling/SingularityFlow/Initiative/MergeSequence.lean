/-
# The order in which Stories merge

`initiativeMergeSequence` lists the Stories of a breakdown so that each comes
after those it depends on, ties broken by name, and says of each whether it is
merged, blocked, in progress or ready.  The first ready one is the next to
merge.

The walk finds an order because an accepted breakdown is grounded.  It starts
at the names in sorted order and visits sorted dependencies, so that it does
not see how the breakdown is written.  Of the Stories that are not merged, the
first has all its dependencies merged; where every Story is complete it is
ready, and so merging what is next comes to an end with all Stories merged.
-/
import SingularityFlow.Initiative.Breakdown
import Mathlib.Logic.Function.Iterate

namespace SingularityFlow

open Ecma Ecma.Value

namespace Breakdowns

/-! ## The sequence -/

/-- `texts.sort()`. -/
def sortTexts (texts : List Text) : List Text := texts.insertionSort LeUnits

theorem sortTexts_perm (texts : List Text) : (sortTexts texts).Perm texts :=
  List.perm_insertionSort _ _

theorem sortTexts_congr {texts texts' : List Text} (h : texts.Perm texts') :
    sortTexts texts = sortTexts texts' :=
  List.Perm.eq_of_pairwise (fun _ _ _ _ => leUnits_antisymm) (List.pairwise_insertionSort _ _)
    (List.pairwise_insertionSort _ _)
    ((sortTexts_perm texts).trans (h.trans (sortTexts_perm texts').symm))

/-- `new Map(stories.map(story => [story.id, story]))`. -/
def byId (stories : List Story) : List (Text × Story) :=
  stories.foldl (fun map story => mapSet map story.id.text story) []

/-- The Stories, each after its dependencies. -/
def mergeOrder (stories : List Story) : List Story :=
  DepthFirst.collectAll (mapGet (byId stories)) (fun story => sortTexts story.dependencies)
    (stories.length + 1) (sortTexts (distinct (stories.map fun story => story.id.text)))

inductive MergeStatus where
  | merged | blocked | inProgress | ready
deriving DecidableEq

structure MergeEntry where
  order : Nat
  id : Text
  workId : Text
  repository : Text
  blocking : Bool
  status : MergeStatus
  blockedBy : List Text
deriving DecidableEq

structure MergeSequence where
  stories : List MergeEntry
  nextToMerge : Option MergeEntry
  epicReady : Bool
  outstanding : List Text
deriving DecidableEq

def mergeStatus (merged complete : List Text) (id : Text) (blockedBy : List Text) : MergeStatus :=
  if id ∈ merged then .merged
  else if blockedBy ≠ [] then .blocked
  else if id ∉ complete then .inProgress
  else .ready

def mergeEntry (merged complete : List Text) (index : Nat) (story : Story) : MergeEntry :=
  let blockedBy := sortTexts (story.dependencies.filter (· ∉ merged))
  { order := index + 1
    id := story.id.text
    workId := story.workId.text
    repository := story.repository.text
    blocking := story.blocking
    status := mergeStatus merged complete story.id.text blockedBy
    blockedBy }

def initiativeMergeSequence (breakdown : Breakdown) (merged complete : List Text) :
    MergeSequence :=
  let stories := (mergeOrder breakdown.stories).mapIdx (mergeEntry merged complete)
  let outstanding := stories.filter fun entry => entry.blocking && entry.status ≠ .merged
  { stories
    nextToMerge := stories.find? fun entry => entry.status = .ready
    epicReady := outstanding = []
    outstanding := outstanding.map MergeEntry.id }

/-! ## The order is one -/

section Order

variable {stories : List Story}

theorem byId_eq (stories : List Story) :
    byId stories = (stories.map fun story => (story.id.text, story)).reverse := by
  suffices h : ∀ map : List (Text × Story),
      stories.foldl (fun map story => mapSet map story.id.text story) map
        = (stories.map fun story => (story.id.text, story)).reverse ++ map by
    rw [byId, h, List.append_nil]
  induction stories with
  | nil => exact fun _ => rfl
  | cons story stories ih =>
      intro map
      rw [List.foldl_cons, ih, List.map_cons, List.reverse_cons, List.append_assoc]
      rfl

theorem byId_keys (stories : List Story) :
    (byId stories).map Prod.fst = (stories.map fun story => story.id.text).reverse := by
  rw [byId_eq, List.map_reverse, List.map_map]
  rfl

theorem mapGet_byId (hnodup : (stories.map fun story => story.id.text).Nodup) {story : Story}
    (h : story ∈ stories) : mapGet (byId stories) story.id.text = some story := by
  refine mapGet_of_mem ?_ ?_
  · rw [byId_keys]
    exact List.nodup_reverse.mpr hnodup
  · rw [byId_eq, List.mem_reverse]
    exact List.mem_map_of_mem h

theorem mapGet_byId_iff {id : Text} {story : Story}
    (hnodup : (stories.map fun story => story.id.text).Nodup) :
    mapGet (byId stories) id = some story ↔ story ∈ stories ∧ story.id.text = id := by
  constructor
  · intro h
    have hmem := mem_of_mapGet h
    rw [byId_eq, List.mem_reverse] at hmem
    obtain ⟨found, hfound, heq⟩ := List.mem_map.mp hmem
    cases heq
    exact ⟨hfound, rfl⟩
  · rintro ⟨hmem, rfl⟩
    exact mapGet_byId hnodup hmem

/-- Accepted Stories have a rank that dependencies lower, below their number. -/
theorem Planned.ranked (h : Planned stories) : ∃ rank : Text → Nat,
    DepthFirst.Ranked (mapGet (byId stories)) (fun story => sortTexts story.dependencies)
        (fun story => story.id.text) (stories.map fun story => story.id.text) rank
      ∧ ∀ id ∈ stories.map fun story => story.id.text, rank id < stories.length + 1 := by
  obtain ⟨l, hgrounded, hsub, hsup⟩ := h.grounded
  obtain ⟨rank, hrank⟩ := hgrounded.exists_rank
  have hfind : ∀ {id : Text} {story : Story}, mapGet (byId stories) id = some story →
      story ∈ stories ∧ story.id.text = id := (mapGet_byId_iff h.ids_nodup).mp
  refine ⟨rank, ⟨fun id hid => ?_, fun hstory => (hfind hstory).2, fun _ hstory d hd => ?_,
    fun hid hstory d hd => ?_⟩, fun id hid => ?_⟩
  · obtain ⟨story, hmem, rfl⟩ := List.mem_map.mp hid
    exact ⟨story, mapGet_byId h.ids_nodup hmem⟩
  · exact h.known _ (hfind hstory).1 ((sortTexts_perm _).mem_iff.mp hd)
  · obtain ⟨hmem, rfl⟩ := hfind hstory
    refine ((hrank _ (hsub hid)).2 d ?_).2
    rw [dependenciesOf_eq h.ids_nodup hmem]
    exact (sortTexts_perm _).mem_iff.mp hd
  · have hcard : l.toFinset.card ≤ stories.length := by
      refine (Finset.card_le_card (t := (stories.map fun story => story.id.text).toFinset)
        fun x hx => ?_).trans ?_
      · exact List.mem_toFinset.mpr (hsup (List.mem_toFinset.mp hx))
      · exact (List.toFinset_card_le _).trans (List.length_map _).le
    have := (hrank id (hsub hid)).1
    omega

/-- **Each Story is listed once, and after its dependencies.** -/
theorem mergeOrder_spec (h : Planned stories) :
    (mergeOrder stories).Perm stories ∧ ∀ before story after,
      mergeOrder stories = before ++ story :: after →
      story.dependencies ⊆ before.map fun s => s.id.text := by
  obtain ⟨rank, hranked, hfuel⟩ := h.ranked
  have hroots : sortTexts (distinct (stories.map fun story => story.id.text))
      ⊆ stories.map fun story => story.id.text := fun id hid =>
    mem_distinct.mp ((sortTexts_perm _).mem_iff.mp hid)
  obtain ⟨hnodup, hall, hfound, hfirst⟩ := DepthFirst.collectAll_walk hranked hroots hfuel
  have hmem : ∀ story, story ∈ mergeOrder stories ↔ story ∈ stories := by
    intro story
    constructor
    · intro hs
      exact ((mapGet_byId_iff h.ids_nodup).mp (hfound story hs).2).1
    · intro hs
      have hid : story.id.text ∈ (mergeOrder stories).map fun s => s.id.text :=
        hall ((sortTexts_perm _).mem_iff.mpr (mem_distinct.mpr (List.mem_map_of_mem hs)))
      obtain ⟨found, hmem, heq⟩ := List.mem_map.mp hid
      have hstory := ((mapGet_byId_iff h.ids_nodup).mp (hfound found hmem).2).1
      rw [← List.inj_on_of_nodup_map h.ids_nodup hstory hs heq]
      exact hmem
  refine ⟨(List.perm_ext_iff_of_nodup (List.Nodup.of_map _ hnodup)
    (List.Nodup.of_map _ h.ids_nodup)).mpr hmem, fun before story after heq d hd => ?_⟩
  exact hfirst before story after heq ((sortTexts_perm _).mem_iff.mpr hd)

end Order

/-! ## How the breakdown is written does not matter -/

/-- A Story with its dependencies in another order. -/
def SameStory (story story' : Story) : Prop :=
  story' = { story with dependsOn := story'.dependsOn } ∧ story.dependsOn.Perm story'.dependsOn

/-- A breakdown with its Stories, and the dependencies of each, in another order. -/
def Reordered (breakdown breakdown' : Breakdown) : Prop :=
  ∃ stories, List.Forall₂ SameStory breakdown.stories stories ∧ stories.Perm breakdown'.stories

theorem SameStory.id_eq {story story' : Story} (h : SameStory story story') :
    story'.id = story.id := by rw [h.1]

theorem SameStory.dependencies_perm {story story' : Story} (h : SameStory story story') :
    story.dependencies.Perm story'.dependencies := h.2.map _

theorem SameStory.exists_of_mem {stories stories' : List Story}
    (h : List.Forall₂ SameStory stories stories') {story : Story} (hmem : story ∈ stories) :
    ∃ story' ∈ stories', SameStory story story' := by
  induction h with
  | nil => cases hmem
  | @cons s s' _ _ hs _ ih =>
      rcases List.mem_cons.mp hmem with rfl | hmem
      · exact ⟨s', List.mem_cons_self .., hs⟩
      · obtain ⟨story', hmem', hsame⟩ := ih hmem
        exact ⟨story', List.mem_cons_of_mem _ hmem', hsame⟩

theorem SameStory.ids {stories stories' : List Story} (h : List.Forall₂ SameStory stories stories') :
    stories'.map (fun s => s.id.text) = stories.map fun s => s.id.text := by
  induction h with
  | nil => rfl
  | cons hs _ ih => rw [List.map_cons, List.map_cons, ih, hs.id_eq]

theorem mergeEntry_congr {story story' : Story} (h : SameStory story story')
    (merged complete : List Text) (index : Nat) :
    mergeEntry merged complete index story' = mergeEntry merged complete index story := by
  have hblocked : sortTexts (story'.dependencies.filter (· ∉ merged))
      = sortTexts (story.dependencies.filter (· ∉ merged)) :=
    sortTexts_congr (h.dependencies_perm.symm.filter _)
  rw [mergeEntry, hblocked, h.1]
  rfl

theorem mapIdx_congr_of_forall₂ {α β γ : Type} {R : α → β → Prop} {f : Nat → α → γ}
    {g : Nat → β → γ} (hfg : ∀ i a b, R a b → g i b = f i a) {l : List α} {m : List β}
    (h : List.Forall₂ R l m) : m.mapIdx g = l.mapIdx f := by
  induction h generalizing f g with
  | nil => rfl
  | cons hab _ ih =>
      rw [List.mapIdx_cons, List.mapIdx_cons, hfg 0 _ _ hab,
        ih (f := fun i => f (i + 1)) (g := fun i => g (i + 1)) fun i a b hr => hfg (i + 1) a b hr]

theorem mergeOrder_forall₂ {stories stories' : List Story}
    (hnodup : (stories.map fun s => s.id.text).Nodup)
    (h : List.Forall₂ SameStory stories stories') {others : List Story} (hperm : stories'.Perm others) :
    List.Forall₂ SameStory (mergeOrder stories) (mergeOrder others) := by
  have hids' := SameStory.ids h
  have hids : (others.map fun s => s.id.text).Perm (stories.map fun s => s.id.text) := by
    rw [← hids']
    exact (hperm.map _).symm
  have hnodup' : (others.map fun s => s.id.text).Nodup := hids.nodup_iff.mpr hnodup
  have hroots : sortTexts (distinct (others.map fun s => s.id.text))
      = sortTexts (distinct (stories.map fun s => s.id.text)) := by
    rw [distinct_eq_self hnodup', distinct_eq_self hnodup]
    exact sortTexts_congr hids
  have hlength : others.length = stories.length := by
    rw [← hperm.length_eq, h.length_eq]
  have hnode : ∀ id, Option.Rel SameStory (mapGet (byId stories) id) (mapGet (byId others) id) := by
    intro id
    cases hget : mapGet (byId stories) id with
    | some story =>
        obtain ⟨hmem, rfl⟩ := (mapGet_byId_iff hnodup).mp hget
        obtain ⟨story', hmem', hsame⟩ := SameStory.exists_of_mem h hmem
        have hother : mapGet (byId others) story'.id.text = some story' :=
          mapGet_byId hnodup' (hperm.mem_iff.mp hmem')
        rw [← hsame.id_eq, hother]
        exact .some hsame
    | none =>
        cases hget' : mapGet (byId others) id with
        | none => exact .none
        | some story' =>
            obtain ⟨hmem', rfl⟩ := (mapGet_byId_iff hnodup').mp hget'
            obtain ⟨story, hmem, hid⟩ := List.mem_map.mp
              (hids.mem_iff.mp (List.mem_map_of_mem (f := fun s => s.id.text) hmem'))
            rw [← hid, mapGet_byId hnodup hmem] at hget
            cases hget
  rw [mergeOrder, mergeOrder, hroots, hlength]
  exact DepthFirst.collectAll_related hnode
    (fun _ _ hsame => sortTexts_congr hsame.dependencies_perm) _ _

/-- **The sequence does not depend on how the breakdown is written.** -/
theorem mergeSequence_reordered {breakdown breakdown' : Breakdown}
    (hnodup : (breakdown.stories.map fun s => s.id.text).Nodup) (h : Reordered breakdown breakdown')
    (merged complete : List Text) : initiativeMergeSequence breakdown' merged complete
      = initiativeMergeSequence breakdown merged complete := by
  obtain ⟨stories, hsame, hperm⟩ := h
  have hentries : (mergeOrder breakdown'.stories).mapIdx (mergeEntry merged complete)
      = (mergeOrder breakdown.stories).mapIdx (mergeEntry merged complete) :=
    mapIdx_congr_of_forall₂ (f := mergeEntry merged complete) (g := mergeEntry merged complete)
      (fun i _ _ hs => mergeEntry_congr hs merged complete i)
      (mergeOrder_forall₂ hnodup hsame hperm)
  rw [initiativeMergeSequence, hentries]
  rfl

/-! ## Merging what is next -/

section Progress

variable {breakdown : Breakdown} {merged complete : List Text}

/-- The names of entries are those of their Stories. -/
theorem entry_ids (stories : List Story) :
    (stories.mapIdx (mergeEntry merged complete)).map MergeEntry.id
      = stories.map fun s => s.id.text :=
  List.ext_getElem (by simp) fun i h₁ h₂ => by simp [mergeEntry]

/-- An entry is of the Story at its place. -/
theorem split_entry {before after : List MergeEntry} {entry : MergeEntry}
    (h : (initiativeMergeSequence breakdown merged complete).stories = before ++ entry :: after) :
    ∃ earlier story later, mergeOrder breakdown.stories = earlier ++ story :: later
      ∧ before.map MergeEntry.id = earlier.map (fun s => s.id.text)
      ∧ entry = mergeEntry merged complete earlier.length story := by
  obtain ⟨earlier, rest, horder, rfl, hrest⟩ := List.mapIdx_eq_append_iff.mp h
  obtain ⟨story, later, rfl, hentry, -⟩ := List.mapIdx_eq_cons_iff.mp hrest
  refine ⟨earlier, story, later, horder, entry_ids earlier, ?_⟩
  rw [← hentry, Nat.zero_add]

theorem exists_entry {entry : MergeEntry}
    (h : entry ∈ (initiativeMergeSequence breakdown merged complete).stories) :
    ∃ index, ∃ story ∈ mergeOrder breakdown.stories,
      entry = mergeEntry merged complete index story := by
  obtain ⟨before, after, hsplit⟩ := List.append_of_mem h
  obtain ⟨earlier, story, later, horder, -, hentry⟩ := split_entry hsplit
  refine ⟨earlier.length, story, ?_, hentry⟩
  rw [horder]
  exact List.mem_append_right _ (List.mem_cons_self ..)

theorem status_ready_iff {index : Nat} {story : Story} :
    (mergeEntry merged complete index story).status = .ready ↔ story.id.text ∉ merged
      ∧ story.dependencies ⊆ merged ∧ story.id.text ∈ complete := by
  have hblocked : sortTexts (story.dependencies.filter (· ∉ merged)) = []
      ↔ story.dependencies ⊆ merged := by
    rw [← List.length_eq_zero_iff, (sortTexts_perm _).length_eq, List.length_eq_zero_iff,
      List.filter_eq_nil_iff]
    simp only [decide_not, Bool.not_eq_true', decide_eq_false_iff_not, not_not]
    rfl
  show mergeStatus merged complete story.id.text _ = .ready ↔ _
  unfold mergeStatus
  split_ifs with h₁ h₂ h₃
  · exact iff_of_false nofun fun h => h.1 h₁
  · exact iff_of_false nofun fun h => h₂ (hblocked.mpr h.2.1)
  · exact iff_of_true rfl ⟨h₁, hblocked.mp (not_not.mp h₂), h₃⟩
  · exact iff_of_false nofun fun h => h₃ h.2.2

/-- What is next is a Story that is not merged, with its dependencies merged. -/
theorem nextToMerge_spec (h : Planned breakdown.stories) {entry : MergeEntry}
    (hnext : (initiativeMergeSequence breakdown merged complete).nextToMerge = some entry) :
    ∃ story ∈ breakdown.stories, entry.id = story.id.text ∧ story.id.text ∉ merged
      ∧ story.dependencies ⊆ merged ∧ story.id.text ∈ complete := by
  have hready : entry.status = .ready := of_decide_eq_true (List.find?_some hnext :)
  obtain ⟨index, story, hmem, rfl⟩ := exists_entry (List.mem_of_find?_eq_some hnext)
  exact ⟨story, (mergeOrder_spec h).1.mem_iff.mp hmem, rfl, status_ready_iff.mp hready⟩

/-- **While a Story is not merged and all are complete, one is next.** -/
theorem nextToMerge_ne_none (h : Planned breakdown.stories) {unmerged : Story}
    (hmem : unmerged ∈ breakdown.stories) (hunmerged : unmerged.id.text ∉ merged)
    (hcomplete : ∀ story ∈ breakdown.stories, story.id.text ∈ complete) :
    (initiativeMergeSequence breakdown merged complete).nextToMerge ≠ none := by
  obtain ⟨hperm, hfirst⟩ := mergeOrder_spec h
  -- the first Story of the order that is not merged
  have hsome : ((mergeOrder breakdown.stories).find? (·.id.text ∉ merged)).isSome = true :=
    List.find?_isSome.mpr ⟨unmerged, hperm.mem_iff.mpr hmem, decide_eq_true hunmerged⟩
  obtain ⟨story, hstory⟩ := Option.isSome_iff_exists.mp hsome
  obtain ⟨hnot, before, after, horder, hbefore⟩ := List.find?_eq_some_iff_append.mp hstory
  have hmerged : before.map (fun s => s.id.text) ⊆ merged := by
    intro id hid
    obtain ⟨s, hs, rfl⟩ := List.mem_map.mp hid
    simpa using hbefore s hs
  have hready : (mergeEntry merged complete before.length story).status = .ready := by
    refine status_ready_iff.mpr ⟨of_decide_eq_true hnot, ?_, ?_⟩
    · exact fun d hd => hmerged (hfirst before story after horder hd)
    · refine hcomplete story (hperm.mem_iff.mp ?_)
      rw [horder]
      exact List.mem_append_right _ (List.mem_cons_self ..)
  have hentry : mergeEntry merged complete before.length story
      ∈ (initiativeMergeSequence breakdown merged complete).stories := by
    refine List.mem_mapIdx.mpr ⟨before.length, ?_, ?_⟩
    · rw [horder, List.length_append, List.length_cons]
      omega
    · simp [horder]
  refine Option.isSome_iff_ne_none.mp (List.find?_isSome.mpr ⟨_, hentry, decide_eq_true hready⟩)

/-- Merging what is next. -/
def mergeNext (breakdown : Breakdown) (complete merged : List Text) : List Text :=
  match (initiativeMergeSequence breakdown merged complete).nextToMerge with
  | none => merged
  | some entry => entry.id :: merged

/-- The names of the Stories that are not merged. -/
def unmergedIds (breakdown : Breakdown) (merged : List Text) : Finset Text :=
  (breakdown.stories.map fun story => story.id.text).toFinset \ merged.toFinset

/-- One Story fewer is left to merge. -/
theorem unmergedIds_mergeNext (h : Planned breakdown.stories)
    (hcomplete : ∀ story ∈ breakdown.stories, story.id.text ∈ complete)
    (hleft : unmergedIds breakdown merged ≠ ∅) :
    (unmergedIds breakdown (mergeNext breakdown complete merged)).card
      < (unmergedIds breakdown merged).card := by
  obtain ⟨id, hid⟩ := Finset.nonempty_iff_ne_empty.mpr hleft
  rw [unmergedIds, Finset.mem_sdiff, List.mem_toFinset, List.mem_toFinset, List.mem_map] at hid
  obtain ⟨⟨unmerged, hmem, rfl⟩, hunmerged⟩ := hid
  obtain ⟨entry, hnext⟩ :=
    Option.ne_none_iff_exists'.mp (nextToMerge_ne_none h hmem hunmerged hcomplete)
  obtain ⟨story, hstory, hentry, hnot, -, -⟩ := nextToMerge_spec h hnext
  have hstep : mergeNext breakdown complete merged = story.id.text :: merged := by
    rw [mergeNext, hnext, ← hentry]
  refine Finset.card_lt_card (Finset.ssubset_iff_subset_ne.mpr ⟨fun x hx => ?_, fun heq => ?_⟩)
  · rw [hstep, unmergedIds, List.toFinset_cons, Finset.mem_sdiff, Finset.mem_insert] at hx
    exact Finset.mem_sdiff.mpr ⟨hx.1, fun hm => hx.2 (.inr hm)⟩
  · have hin : story.id.text ∈ unmergedIds breakdown merged :=
      Finset.mem_sdiff.mpr ⟨List.mem_toFinset.mpr (List.mem_map_of_mem hstory),
        fun hm => hnot (List.mem_toFinset.mp hm)⟩
    rw [← heq, hstep, unmergedIds, Finset.mem_sdiff, List.mem_toFinset, List.mem_toFinset] at hin
    exact hin.2 (List.mem_cons_self ..)

/-- **Merging what is next merges every Story**, in as many rounds as are left. -/
theorem merged_iterate (h : Planned breakdown.stories)
    (hcomplete : ∀ story ∈ breakdown.stories, story.id.text ∈ complete) :
    ∀ (rounds : Nat) (merged : List Text), (unmergedIds breakdown merged).card ≤ rounds →
      unmergedIds breakdown ((mergeNext breakdown complete)^[rounds] merged) = ∅ := by
  intro rounds
  induction rounds with
  | zero => exact fun merged hle => Finset.card_eq_zero.mp (Nat.le_zero.mp hle)
  | succ rounds ih =>
      intro merged hle
      rw [Function.iterate_succ_apply]
      refine ih _ ?_
      by_cases hleft : unmergedIds breakdown merged = ∅
      · -- nothing is left, and what is next is null
        have hnone : (initiativeMergeSequence breakdown merged complete).nextToMerge = none := by
          by_contra hsome
          obtain ⟨entry, hnext⟩ := Option.ne_none_iff_exists'.mp hsome
          obtain ⟨story, hstory, -, hnot, -, -⟩ := nextToMerge_spec h hnext
          have hin : story.id.text ∈ unmergedIds breakdown merged :=
            Finset.mem_sdiff.mpr ⟨List.mem_toFinset.mpr (List.mem_map_of_mem hstory),
              fun hm => hnot (List.mem_toFinset.mp hm)⟩
          rw [hleft] at hin
          exact Finset.notMem_empty _ hin
        rw [mergeNext, hnone]
        dsimp only
        rw [hleft, Finset.card_empty]
        omega
      · have := unmergedIds_mergeNext h hcomplete hleft
        omega

end Progress

/-! ## A safe order -/

/-- What the sequence of a breakdown is for: it is an order to merge in. -/
structure SafeOrder (breakdown : Breakdown) (merged complete : List Text) : Prop where
  /-- Each Story is there once, -/
  once : ((initiativeMergeSequence breakdown merged complete).stories.map MergeEntry.id).Perm
      (breakdown.stories.map fun story => story.id.text)
    ∧ (breakdown.stories.map fun story => story.id.text).Nodup
  /-- after the Stories that it depends on, -/
  dependencies : ∀ before entry after,
    (initiativeMergeSequence breakdown merged complete).stories = before ++ entry :: after →
    ∀ story ∈ breakdown.stories, story.id.text = entry.id →
      story.dependencies ⊆ before.map MergeEntry.id
  /-- however the breakdown is written, -/
  unordered : ∀ breakdown', Reordered breakdown breakdown' →
    initiativeMergeSequence breakdown' merged complete
      = initiativeMergeSequence breakdown merged complete
  /-- ready only when they are merged, -/
  ready : ∀ entry ∈ (initiativeMergeSequence breakdown merged complete).stories,
    entry.status = .ready → ∀ story ∈ breakdown.stories, story.id.text = entry.id →
      story.dependencies ⊆ merged
  /-- one is next while a Story is left and all are complete, -/
  progress : (∀ story ∈ breakdown.stories, story.id.text ∈ complete) →
    (∃ story ∈ breakdown.stories, story.id.text ∉ merged) →
    (initiativeMergeSequence breakdown merged complete).nextToMerge ≠ none
  /-- and then merging what is next merges all. -/
  merges : (∀ story ∈ breakdown.stories, story.id.text ∈ complete) →
    ∀ story ∈ breakdown.stories,
      story.id.text ∈ (mergeNext breakdown complete)^[breakdown.stories.length] merged

theorem safeOrder_of_planned {breakdown : Breakdown} (h : Planned breakdown.stories)
    (merged complete : List Text) : SafeOrder breakdown merged complete := by
  obtain ⟨hperm, hfirst⟩ := mergeOrder_spec h
  have hstory : ∀ {story other : Story}, story ∈ breakdown.stories →
      other ∈ mergeOrder breakdown.stories → story.id.text = other.id.text → story = other :=
    fun hs ho hid => List.inj_on_of_nodup_map h.ids_nodup hs (hperm.mem_iff.mp ho) hid
  refine ⟨⟨?_, h.ids_nodup⟩, ?_, fun _ => (mergeSequence_reordered h.ids_nodup · merged complete), ?_,
    fun hcomplete ⟨story, hmem, hnot⟩ => nextToMerge_ne_none h hmem hnot hcomplete, ?_⟩
  · exact (List.Perm.of_eq (entry_ids (mergeOrder breakdown.stories))).trans (hperm.map _)
  · intro before entry after hsplit story hmem hid
    obtain ⟨earlier, other, later, horder, hbefore, rfl⟩ := split_entry hsplit
    have hother : other ∈ mergeOrder breakdown.stories := by
      rw [horder]
      exact List.mem_append_right _ (List.mem_cons_self ..)
    obtain rfl := hstory hmem hother hid
    rw [hbefore]
    exact hfirst earlier story later horder
  · intro entry hentry hready story hmem hid
    obtain ⟨index, other, hother, rfl⟩ := exists_entry hentry
    obtain rfl := hstory hmem hother hid
    exact (status_ready_iff.mp hready).2.1
  · intro hcomplete story hmem
    have hcard : (unmergedIds breakdown merged).card ≤ breakdown.stories.length :=
      ((Finset.card_le_card Finset.sdiff_subset).trans (List.toFinset_card_le _)).trans
        (List.length_map _).le
    have hall := merged_iterate h hcomplete _ merged hcard
    by_contra hnot
    have hin : story.id.text ∈ unmergedIds breakdown
        ((mergeNext breakdown complete)^[breakdown.stories.length] merged) :=
      Finset.mem_sdiff.mpr ⟨List.mem_toFinset.mpr (List.mem_map_of_mem hmem),
        fun hm => hnot (List.mem_toFinset.mp hm)⟩
    rw [hall] at hin
    exact Finset.notMem_empty _ hin

/-- **The merge sequence of an accepted breakdown is a safe order.** -/
theorem mergeSequence_safe {knows : Text → Bool} {raw : Value} {breakdown : Breakdown}
    (h : validateInitiativeBreakdown knows raw = .ok breakdown) (merged complete : List Text) :
    SafeOrder breakdown merged complete :=
  safeOrder_of_planned (planned_of_checkStories (validate_ok h).1) merged complete

/-- A Story, and one that it depends on. -/
def dependentPlan : Value :=
  .obj [(js "version", .num (Number.ofNat 1)), (js "epics", .arr [.obj [(js "id", .str (js "EPIC-1")),
    (js "stories", .arr [
      .obj [(js "id", .str (js "A")), (js "repository", .str (js "app")),
        (js "dependsOn", .arr [.str (js "B")])],
      .obj [(js "id", .str (js "B")), (js "repository", .str (js "app"))]])]])]

theorem dependentPlan_accepted : ∃ breakdown,
    validateInitiativeBreakdown (fun _ => true) dependentPlan = .ok breakdown := by
  have h : (validateInitiativeBreakdown (fun _ => true) dependentPlan).toOption.isSome = true := by
    decide +kernel
  cases hread : validateInitiativeBreakdown (fun _ => true) dependentPlan with
  | error e => rw [hread] at h; cases h
  | ok breakdown => exact ⟨breakdown, rfl⟩

theorem mergeSequence_safe_sample : ∃ breakdown,
    validateInitiativeBreakdown (fun _ => true) dependentPlan = .ok breakdown
      ∧ SafeOrder breakdown [] [js "A", js "B"] := by
  obtain ⟨breakdown, h⟩ := dependentPlan_accepted
  exact ⟨breakdown, h, mergeSequence_safe h [] [js "A", js "B"]⟩

end Breakdowns

end SingularityFlow
