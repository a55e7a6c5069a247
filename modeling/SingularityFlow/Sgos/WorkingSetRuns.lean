/-
# What a working set keeps

Sources stand in one order, by priority and then by identity, and that order
does not see in which order they were given (`rank`).  From then on the two
loops only decide, source by source, which are kept: after every turn the
record is the one of a placement (`Placement.core`).
-/
import SingularityFlow.Sgos.WorkingSets
import Mathlib.Data.Prod.Lex

namespace SingularityFlow

open Ecma

namespace Sgos

/-! ## The order of sources -/

/-- Where a source stands: its priority, and the code points of its identity. -/
def rank (place : WorkingSetPriority × Text) : ℕ ×ₗ List ℕ :=
  toLex (place.1.index, codePoints place.2)

theorem index_injective : Function.Injective WorkingSetPriority.index := by
  intro p q
  cases p <;> cases q <;> simp [WorkingSetPriority.index, workingSetPriorities]

theorem rank_injective : Function.Injective rank := by
  intro p q h
  obtain ⟨hpriority, hidentity⟩ := Prod.mk.inj (toLex.injective h)
  exact Prod.ext (index_injective hpriority) (codePoints_injective hidentity)

theorem orderOf_ne_gt_iff {p q : WorkingSetPriority × Text} : orderOf p q ≠ .gt ↔ rank p ≤ rank q := by
  rw [rank, rank, Prod.Lex.toLex_le_toLex, orderOf, compareSgosCodePoints]
  have hgt := (comparePoints_cases (codePoints p.2) (codePoints q.2)).2
  rcases lt_trichotomy p.1.index q.1.index with h | h | h
  · simp [compare_lt_iff_lt.mpr h, h]
  · simp [h, hgt]
  · simp [compare_gt_iff_gt.mpr h, h.not_gt, h.ne']

theorem leSource_iff {left right : Source} :
    LeSource left right ↔ rank left.place ≤ rank right.place := orderOf_ne_gt_iff

theorem leOmission_iff {left right : Omission} :
    LeOmission left right ↔ rank left.place ≤ rank right.place := orderOf_ne_gt_iff

/-! ## Placements -/

/-- The sources with the decision on each, in their order. -/
abbrev Placement := List (Source × Bool)

namespace Placement

def kept (placed : Placement) : List Source := (placed.filter fun p => p.2).map Prod.fst

def left (placed : Placement) : List Source := (placed.filter fun p => !p.2).map Prod.fst

@[simp] theorem kept_append (a b : Placement) : kept (a ++ b) = kept a ++ kept b := by
  simp [kept]

@[simp] theorem left_append (a b : Placement) : left (a ++ b) = left a ++ left b := by
  simp [left]

@[simp] theorem kept_cons_true (source : Source) (rest : Placement) :
    kept ((source, true) :: rest) = source :: kept rest := rfl

@[simp] theorem kept_cons_false (source : Source) (rest : Placement) :
    kept ((source, false) :: rest) = kept rest := rfl

@[simp] theorem left_cons_true (source : Source) (rest : Placement) :
    left ((source, true) :: rest) = left rest := rfl

@[simp] theorem left_cons_false (source : Source) (rest : Placement) :
    left ((source, false) :: rest) = source :: left rest := rfl

@[simp] theorem kept_nil : kept [] = [] := rfl

@[simp] theorem left_nil : left [] = [] := rfl

theorem kept_sublist (placed : Placement) : placed.kept.Sublist (placed.map Prod.fst) :=
  List.filter_sublist.map _

theorem left_sublist (placed : Placement) : placed.left.Sublist (placed.map Prod.fst) :=
  List.filter_sublist.map _

/-- The last source that is kept, with those behind it. -/
theorem exists_last_kept : ∀ {placed : Placement}, placed.kept ≠ [] →
    ∃ before source behind, placed = before ++ (source, true) :: behind ∧ kept behind = []
  | [], h => absurd rfl h
  | (source, b) :: rest, h => by
      by_cases hrest : kept rest = []
      · cases b with
        | false => exact absurd hrest h
        | true => exact ⟨[], source, rest, rfl, hrest⟩
      · obtain ⟨before, last, behind, rfl, hbehind⟩ := exists_last_kept hrest
        exact ⟨(source, b) :: before, last, behind, rfl, hbehind⟩

end Placement

/-- The omission of a source that is not kept. -/
def Source.omitted (source : Source) : Omission :=
  source.omission (source.forcedOmission.getD .budgetExceeded)

/-- The record of a placement. -/
def Placement.core (header : WorkingSetHeader) (placed : Placement) : WorkingSetCore :=
  ⟨header, (placed.kept.map fun source => source.ref.object.bytes).sum,
    placed.kept.map Source.entry, placed.left.map Source.omitted⟩

/-- Only sources that may be kept are. -/
def Placement.Lawful (placed : Placement) : Prop :=
  ∀ p ∈ placed, p.2 = true → p.1.forcedOmission = none

/-- What `sourceEntry` has checked. -/
structure Source.Checked (scanText : Text → Text → List Text) (source : Source) : Prop where
  reference : checkMemoryRef source.ref = .ok ()
  sealed : sha256Record (.obj source.ref.core) = source.ref.memoryRefSha256
  handle : source.expansionHandle = source.ref.expansionHandle
  named : source.expansionHandle ≠ []
  isolated : source.forcedOmission = if source.ref.isolated then some .secretIsolated else none
  scanned : source.forcedOmission = none →
    assertNoSecretShapedPayload scanText true (js "$") source.payload = .ok ()
  bound : source.forcedOmission = none → ∃ bytes, payloadBytes source.payload = .ok bytes
    ∧ bytes.length = source.ref.object.bytes ∧ sha256Bytes bytes = source.ref.object.sha256

variable (header : WorkingSetHeader)

theorem admitSource_core (placed : Placement) (source : Source) :
    ∃ b : Bool, admitSource (placed.core header) source
        = Placement.core header (placed ++ [(source, b)])
      ∧ (b = true → source.forcedOmission = none) := by
  unfold admitSource
  split
  · next reason hforced =>
    refine ⟨false, ?_, fun h => absurd h (by decide)⟩
    simp [Placement.core, Source.omitted, hforced]
  · next hfree =>
    dsimp only
    split
    · refine ⟨true, ?_, fun _ => hfree⟩
      simp [Placement.core]
    · refine ⟨false, ?_, fun h => absurd h (by decide)⟩
      simp [Placement.core, Source.omitted, hfree]

/-- **The loop that admits**: it decides on each source in turn. -/
theorem foldl_admitSource (placed : Placement) (ordered : List Source) :
    ∃ placed' : Placement, ordered.foldl admitSource (placed.core header)
        = Placement.core header (placed ++ placed')
      ∧ placed'.map Prod.fst = ordered ∧ placed'.Lawful := by
  induction ordered generalizing placed with
  | nil => exact ⟨[], by simp, rfl, by simp [Placement.Lawful]⟩
  | cons source rest ih =>
      obtain ⟨b, hadmit, hb⟩ := admitSource_core header placed source
      obtain ⟨placed', hrest, hsources, hlawful⟩ := ih (placed ++ [(source, b)])
      refine ⟨(source, b) :: placed', ?_, by simp [hsources], List.forall_mem_cons.mpr ⟨hb, hlawful⟩⟩
      rw [List.foldl_cons, hadmit, hrest, List.append_assoc]
      rfl

/-- Sources whose ranks increase. -/
def Increasing (sources : List Source) : Prop :=
  (sources.map fun source => rank source.place).Pairwise (· < ·)

theorem map_rank_omitted (sources : List Source) :
    (sources.map Source.omitted).map (fun omission => rank omission.place)
      = sources.map fun source => rank source.place := by
  rw [List.map_map]
  rfl

/-- **To give up the last entry is to decide against its source.** -/
theorem releaseEntry_core {before behind : Placement} {source : Source}
    (hfree : source.forcedOmission = none)
    (hhandle : source.expansionHandle = source.ref.expansionHandle) (hbehind : behind.kept = [])
    (horder : Increasing ((before ++ (source, true) :: behind).map Prod.fst)) :
    releaseEntry (Placement.core header (before ++ (source, true) :: behind)) source.entry
      = Placement.core header (before ++ (source, false) :: behind) := by
  have hentry : source.entry.omission = source.omitted := by
    simp [WorkingSetEntry.omission, Source.omitted, Source.omission, Source.entry, Source.identity,
      hfree, hhandle]
  have hsorted : ((before.left ++ behind.left).map Source.omitted
      ++ [source.entry.omission]).insertionSort LeOmission
        = (before.left ++ source :: behind.left).map Source.omitted := by
    refine insertionSort_eq_of_perm (fun _ _ => leOmission_iff) ?_ ?_
    · rw [hentry, ← List.map_singleton, ← List.map_append]
      exact ((List.perm_append_singleton _ _).trans List.perm_middle.symm).map _
    · rw [map_rank_omitted]
      refine horder.sublist (List.Sublist.map _ ?_)
      rw [List.map_append, List.map_cons]
      exact (Placement.left_sublist _).append ((Placement.left_sublist _).cons_cons _)
  rw [releaseEntry, Placement.core, Placement.core, WorkingSetCore.mk.injEq]
  refine ⟨rfl, ?_, ?_, ?_⟩
  · simp [hbehind, Source.entry]
  · simp [hbehind]
  · simpa using hsorted

theorem evictEntries_fits {base : WorkingSetCore} (h : base.sealedBytes ≤ base.header.maximumBytes) :
    evictEntries base = base := by
  rw [evictEntries, if_pos h]

theorem evictEntries_empty {base : WorkingSetCore} (h : base.entries = []) :
    evictEntries base = base := by
  rw [evictEntries, dif_pos h, ite_self]

theorem evictEntries_long {base : WorkingSetCore}
    (hlong : ¬ base.sealedBytes ≤ base.header.maximumBytes) (h : base.entries ≠ []) :
    evictEntries base = evictEntries (releaseEntry base (base.entries.getLast h)) := by
  rw [evictEntries, if_neg hlong, dif_neg h]

/-- What gives up entries keeps the sources and their order, and ends with a
record that fits or without entries. -/
theorem evictEntries_core (n : Nat) : ∀ placed : Placement, placed.kept.length = n →
    placed.Lawful → Increasing (placed.map Prod.fst) →
    (∀ p ∈ placed, p.1.expansionHandle = p.1.ref.expansionHandle) →
    ∃ placed' : Placement, evictEntries (placed.core header) = placed'.core header
      ∧ placed'.map Prod.fst = placed.map Prod.fst ∧ placed'.Lawful
      ∧ ((placed'.core header).sealedBytes ≤ header.maximumBytes ∨ placed'.kept = []) := by
  induction n with
  | zero =>
      intro placed hlength hlawful _ _
      have hnone := List.length_eq_zero_iff.mp hlength
      exact ⟨placed, evictEntries_empty (by simp [Placement.core, hnone]), rfl, hlawful, .inr hnone⟩
  | succ n ih =>
      intro placed hlength hlawful horder hhandles
      by_cases hfits : (placed.core header).sealedBytes ≤ header.maximumBytes
      · exact ⟨placed, evictEntries_fits hfits, rfl, hlawful, .inl hfits⟩
      · have hkept : placed.kept ≠ [] := fun h => by simp [h] at hlength
        obtain ⟨before, source, behind, rfl, hbehind⟩ := Placement.exists_last_kept hkept
        have hmem : (source, true) ∈ before ++ (source, true) :: behind := by simp
        have hfree := hlawful _ hmem rfl
        have hrelease := releaseEntry_core header hfree (hhandles _ hmem) hbehind horder
        have hlawful' : Placement.Lawful (before ++ (source, false) :: behind) := by
          intro p hp htrue
          rcases List.mem_append.mp hp with hp | hp
          · exact hlawful p (List.mem_append_left _ hp) htrue
          · rcases List.mem_cons.mp hp with rfl | hp
            · cases htrue
            · exact hlawful p (List.mem_append_right _ (List.mem_cons_of_mem _ hp)) htrue
        have hsources : (before ++ (source, false) :: behind).map Prod.fst
            = (before ++ (source, true) :: behind).map Prod.fst := by simp
        obtain ⟨placed', hevict, hsame, hlawful'', hend⟩ :=
          ih (before ++ (source, false) :: behind)
            (by simp [hbehind] at hlength ⊢; omega) hlawful' (hsources ▸ horder) (by
              intro p hp
              rcases List.mem_append.mp hp with hp | hp
              · exact hhandles p (List.mem_append_left _ hp)
              · rcases List.mem_cons.mp hp with rfl | hp
                · exact hhandles (source, true) hmem
                · exact hhandles p (List.mem_append_right _ (List.mem_cons_of_mem _ hp)))
        refine ⟨placed', ?_, hsame.trans hsources, hlawful'', hend⟩
        have hlast : ∀ h : (Placement.core header (before ++ (source, true) :: behind)).entries ≠ [],
            (Placement.core header (before ++ (source, true) :: behind)).entries.getLast h
              = source.entry := by
          intro h
          simp [Placement.core, hbehind]
        rw [evictEntries_long hfits (by simp [Placement.core]), hlast, hrelease, hevict]

end Sgos

end SingularityFlow
