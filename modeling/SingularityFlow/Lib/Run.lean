/-
# Runs of an operation that may refuse

A run applies operations one after another.  It remembers the states it left
and what it applied there, the last first: what is asked of each step of a
run, and what is counted over it, are statements about that list.
-/
import Mathlib.Algebra.GroupWithZero.Nat
import Mathlib.Data.List.Count

namespace Ecma

section Run

variable {ε σ α : Type} {step : σ → α → Except ε σ} {start : σ}

inductive Run (step : σ → α → Except ε σ) (start : σ) : List (σ × α) → σ → Prop
  | start : Run step start [] start
  | step {past : List (σ × α)} {s s' : σ} {a : α} :
      Run step start past s → step s a = .ok s' → Run step start ((s, a) :: past) s'

/-- **The invariant rule.**  What holds at the start and is kept by each step
that the guard admits holds after every run of such steps. -/
theorem Run.invariant (I : List (σ × α) → σ → Prop) (guard : σ → α → Prop)
    {past : List (σ × α)} {s : σ} (h : Run step start past s)
    (hguard : ∀ entry ∈ past, guard entry.1 entry.2) (hstart : I [] start)
    (hstep : ∀ {past s a s'}, I past s → guard s a → step s a = .ok s' → I ((s, a) :: past) s') :
    I past s := by
  induction h with
  | start => exact hstart
  | step _ hs ih =>
      obtain ⟨ha, hpast⟩ := List.forall_mem_cons.mp hguard
      exact hstep (ih hpast) ha hs

/-- A run has passed through a state after each of its first parts. -/
theorem Run.earlier {recent older : List (σ × α)} {s : σ}
    (h : Run step start (recent ++ older) s) : ∃ s', Run step start older s' := by
  induction recent generalizing s with
  | nil => exact ⟨s, h⟩
  | cons entry recent ih =>
      cases h with
      | step h _ => exact ih h

/-- What holds in every state of a run, with what came before it. -/
def Throughout (P : List (σ × α) → σ → Prop) : List (σ × α) → σ → Prop
  | [], s => P [] s
  | (s, a) :: past, s' => P ((s, a) :: past) s' ∧ Throughout P past s

/-- **The rule of exact conditions.**  Where each step from a state with a
property keeps it exactly if the guard admits the step, a run has the property
throughout exactly if the guard admits all its steps. -/
theorem Run.throughout_iff {P : List (σ × α) → σ → Prop} {guard : σ → α → Prop}
    {past : List (σ × α)} {s : σ} (h : Run step start past s) (hstart : P [] start)
    (hstep : ∀ {past s a s'}, Run step start past s → P past s → step s a = .ok s' →
      (P ((s, a) :: past) s' ↔ guard s a)) :
    Throughout P past s ↔ ∀ entry ∈ past, guard entry.1 entry.2 := by
  induction h with
  | start => exact ⟨fun _ _ hmem => absurd hmem List.not_mem_nil, fun _ => hstart⟩
  | @step past s s' a hrun hs ih =>
      have hlast : Throughout P past s → P past s := fun hall => by
        cases past with
        | nil => exact hall
        | cons _ _ => exact hall.1
      rw [List.forall_mem_cons, ← ih]
      constructor
      · rintro ⟨hP, hpast⟩
        exact ⟨(hstep hrun (hlast hpast) hs).mp hP, hpast⟩
      · rintro ⟨hguard, hpast⟩
        exact ⟨(hstep hrun (hlast hpast) hs).mpr hguard, hpast⟩

/-- The rule of exact conditions, where the states that a guard leads to are
known by an invariant. -/
theorem Run.throughout_iff_of_invariant {I : σ → Prop} {P : List (σ × α) → σ → Prop}
    {guard : σ → α → Prop} {past : List (σ × α)} {s : σ} (h : Run step start past s)
    (hI : I start) (hstart : P [] start)
    (hstep : ∀ {past s a s'}, I s → step s a = .ok s' →
      (P ((s, a) :: past) s' ↔ guard s a) ∧ (guard s a → I s')) :
    Throughout P past s ↔ ∀ entry ∈ past, guard entry.1 entry.2 := by
  suffices hall : (Throughout P past s ↔ ∀ entry ∈ past, guard entry.1 entry.2) ∧
      ((∀ entry ∈ past, guard entry.1 entry.2) → I s) from hall.1
  induction h with
  | start => exact ⟨⟨fun _ _ hmem => absurd hmem List.not_mem_nil, fun _ => hstart⟩, fun _ => hI⟩
  | @step past s s' a _ hs ih =>
      obtain ⟨hiff, hinv⟩ := ih
      rw [List.forall_mem_cons]
      refine ⟨⟨?_, ?_⟩, ?_⟩
      · rintro ⟨hP, hpast⟩
        have hguards := hiff.mp hpast
        exact ⟨(hstep (hinv hguards) hs).1.mp hP, hguards⟩
      · rintro ⟨hguard, hguards⟩
        exact ⟨(hstep (hinv hguards) hs).1.mpr hguard, hiff.mpr hguards⟩
      · rintro ⟨hguard, hguards⟩
        exact (@hstep past s a s' (hinv hguards) hs).2 hguard

/-- A run of steps that a guard admits. -/
structure GuardedRun (step : σ → α → Except ε σ) (start : σ) (guard : σ → α → Prop)
    (past : List (σ × α)) (s : σ) : Prop where
  run : Run step start past s
  guarded : ∀ entry ∈ past, guard entry.1 entry.2

theorem GuardedRun.empty {guard : σ → α → Prop} : GuardedRun step start guard [] start :=
  ⟨.start, fun _ hmem => absurd hmem List.not_mem_nil⟩

theorem GuardedRun.next {guard : σ → α → Prop} {past : List (σ × α)} {s s' : σ} {a : α}
    (h : GuardedRun step start guard past s) (hstep : step s a = .ok s') (hguard : guard s a) :
    GuardedRun step start guard ((s, a) :: past) s' :=
  ⟨h.run.step hstep, List.forall_mem_cons.mpr ⟨hguard, h.guarded⟩⟩

/-- What follows from a property in each state of a run follows throughout it. -/
theorem GuardedRun.throughout {guard : σ → α → Prop} {P Q : List (σ × α) → σ → Prop}
    {past : List (σ × α)} {s : σ} (h : GuardedRun step start guard past s)
    (hP : Throughout P past s)
    (hPQ : ∀ {past s}, GuardedRun step start guard past s → P past s → Q past s) :
    Throughout Q past s := by
  obtain ⟨hrun, hguard⟩ := h
  induction hrun with
  | start => exact hPQ .empty hP
  | @step past s s' a hrun hs ih =>
      have hbefore : ∀ entry ∈ past, guard entry.1 entry.2 :=
        fun entry hmem => hguard entry (List.mem_cons_of_mem _ hmem)
      exact ⟨hPQ ⟨hrun.step hs, hguard⟩ hP.1, ih hP.2 hbefore⟩

/-- Apply operations one after another; the first refusal ends it. -/
def runFrom (step : σ → α → Except ε σ) : List (σ × α) × σ → List α →
    Except ε (List (σ × α) × σ)
  | run, [] => .ok run
  | (past, s), a :: rest =>
      match step s a with
      | .error e => .error e
      | .ok s' => runFrom step ((s, a) :: past, s') rest

theorem Run.of_runFrom {run run' : List (σ × α) × σ} {l : List α} (h : Run step start run.1 run.2)
    (hrun : runFrom step run l = .ok run') : Run step start run'.1 run'.2 := by
  induction l generalizing run with
  | nil =>
      obtain rfl := Except.ok.inj hrun
      exact h
  | cons a rest ih =>
      rw [runFrom] at hrun
      split at hrun
      · cases hrun
      · next s' hs => exact ih (.step h hs) hrun

omit step start in
/-- A result that passes a test. -/
theorem exists_ok_of_any {x : Except ε σ} {check : σ → Bool}
    (h : x.toOption.any check = true) : ∃ s, x = .ok s ∧ check s = true := by
  cases x with
  | error e => cases h
  | ok s => exact ⟨s, rfl, h⟩

/-- Operations that lead to a state with a decidable property, of it and of what
came before it. -/
theorem Run.exists_of_runFrom_past {actions : List α} {check : List (σ × α) × σ → Bool}
    (h : (runFrom step ([], start) actions).toOption.any check = true) :
    ∃ past s, Run step start past s ∧ check (past, s) = true := by
  obtain ⟨run, hrun, hcheck⟩ := exists_ok_of_any h
  exact ⟨run.1, run.2, Run.of_runFrom .start hrun, hcheck⟩

/-- Operations that lead to a state with a decidable property. -/
theorem Run.exists_of_runFrom {actions : List α} {check : σ → Bool}
    (h : (runFrom step ([], start) actions).toOption.any (fun run => check run.2) = true) :
    ∃ past s, Run step start past s ∧ check s = true :=
  Run.exists_of_runFrom_past h

/-- Elements that each have one of some labels are at most as many as there
are with each label, summed. -/
theorem countP_le_sum_countP {κ : Type} {p : α → Bool} (labelled : κ → α → Bool)
    {labels : List κ} {l : List α}
    (h : ∀ a ∈ l, p a = true → ∃ label ∈ labels, labelled label a = true) :
    l.countP p ≤ (labels.map fun label => l.countP (labelled label)).sum := by
  induction labels generalizing p with
  | nil =>
      refine Nat.le_of_eq (List.countP_eq_zero.mpr fun a ha hp => ?_)
      obtain ⟨label, hmem, -⟩ := h a ha hp
      cases hmem
  | cons label labels ih =>
      have hrest := ih (p := fun a => p a && !labelled label a) fun a ha hp => by
        simp only [Bool.and_eq_true, Bool.not_eq_true'] at hp
        obtain ⟨other, hmem, hlabelled⟩ := h a ha hp.1
        rcases List.mem_cons.mp hmem with rfl | hmem
        · rw [hp.2] at hlabelled
          cases hlabelled
        · exact ⟨other, hmem, hlabelled⟩
      have hsplit : l.countP p
          ≤ l.countP (labelled label) + l.countP fun a => p a && !labelled label a := by
        clear h ih hrest
        induction l with
        | nil => simp
        | cons a l ih =>
            simp only [List.countP_cons]
            cases p a <;> cases labelled label a <;> simp <;> omega
      rw [List.map_cons, List.sum_cons]
      omega

end Run

end Ecma
