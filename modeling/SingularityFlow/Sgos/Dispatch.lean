/-
# What a dispatch plan guarantees

The loop keeps an invariant (`Safe`): the chosen tasks fit into the slots,
conflict with nothing, and fill no group beyond its ceiling.  That it is also
maximal rests on a fact about its course: chosen tasks stay chosen, so a task
that is passed over because of a conflict or a full group (`Blocked`) stays
blocked (`Blocked.append`).
-/
import SingularityFlow.Sgos.Scheduler

namespace SingularityFlow

open Ecma

namespace Sgos

variable {tables : UnicodeTables} {program : Program} {process : Process}

/-! ## Items of a group -/

/-- The items that one task has in a group. -/
def itemsIn (c : Candidate) (group : Text) : List Text :=
  (c.memberships.filter (·.parentTaskId = group)).map (·.itemKey)

theorem groupItems_eq (tasks : List Candidate) (group : Text) :
    groupItems tasks group = distinct (tasks.flatMap (itemsIn · group)) := by
  rw [groupItems]
  congr 1
  induction tasks with
  | nil => rfl
  | cons c tasks ih => simp [itemsIn, ih]

theorem mem_groupItems {tasks : List Candidate} {group item : Text} :
    item ∈ groupItems tasks group ↔ ∃ c ∈ tasks, item ∈ itemsIn c group := by
  rw [groupItems_eq, mem_distinct, List.mem_flatMap]

theorem groupItems_subset {tasks tasks' : List Candidate} (h : tasks ⊆ tasks') (group : Text) :
    (groupItems tasks group).length ≤ (groupItems tasks' group).length := by
  rw [groupItems_eq, groupItems_eq]
  refine length_distinct_le fun item hitem => ?_
  obtain ⟨c, hc, hin⟩ := List.mem_flatMap.mp hitem
  exact List.mem_flatMap.mpr ⟨c, h hc, hin⟩

theorem mem_itemsIn {c : Candidate} {group item : Text} :
    item ∈ itemsIn c group ↔
      ∃ membership ∈ c.memberships, membership.parentTaskId = group ∧ membership.itemKey = item := by
  simp [itemsIn, and_assoc]

/-- A task has at most one item in a group. -/
theorem itemsIn_length {c : Candidate} (h : (c.memberships.map (·.parentTaskId)).Nodup)
    (group : Text) : (itemsIn c group).length ≤ 1 := by
  rw [itemsIn, List.length_map]
  by_contra hlen
  have hnodup : ((c.memberships.filter (·.parentTaskId = group)).map (·.parentTaskId)).Nodup :=
    h.sublist (List.filter_sublist.map _)
  have hall : ∀ g ∈ (c.memberships.filter (·.parentTaskId = group)).map (·.parentTaskId),
      g = group := by
    intro g hg
    obtain ⟨membership, hmem, rfl⟩ := List.mem_map.mp hg
    simpa using (List.mem_filter.mp hmem).2
  have := List.eq_replicate_of_mem hall
  rw [this, List.nodup_replicate, List.length_map] at hnodup
  omega

/-- One more task adds at most one item to a group. -/
theorem groupItems_append_le {tasks : List Candidate} {c : Candidate}
    (h : (c.memberships.map (·.parentTaskId)).Nodup) (group : Text) :
    (groupItems (tasks ++ [c]) group).length ≤ (groupItems tasks group).length + 1 := by
  have hsub : groupItems (tasks ++ [c]) group ⊆ groupItems tasks group ++ itemsIn c group := by
    intro item hitem
    obtain ⟨d, hd, hin⟩ := mem_groupItems.mp hitem
    rcases List.mem_append.mp hd with hd | hd
    · exact List.mem_append_left _ (mem_groupItems.mpr ⟨d, hd, hin⟩)
    · rw [List.mem_singleton] at hd
      exact List.mem_append_right _ (hd ▸ hin)
  have hlen := (List.subperm_of_subset (nodup_distinct _) hsub).length_le
  rw [List.length_append] at hlen
  exact hlen.trans (Nat.add_le_add_left (itemsIn_length h group) _)

theorem mem_groupItems_append {tasks tasks' : List Candidate} {group item : Text} :
    item ∈ groupItems (tasks ++ tasks') group ↔
      item ∈ groupItems tasks group ∨ item ∈ groupItems tasks' group := by
  simp only [mem_groupItems, List.mem_append, or_and_right, exists_or]

theorem fanoutBlocked_iff {active selected : List Candidate} {c : Candidate} :
    fanoutBlocked active selected c = true ↔ ∃ membership ∈ c.memberships,
      membership.itemKey ∉ groupItems (active ++ selected) membership.parentTaskId ∧
        membership.maximumParallel
          ≤ (groupItems (active ++ selected) membership.parentTaskId).length := by
  simp only [fanoutBlocked, List.any_eq_true, Bool.and_eq_true, decide_eq_true_eq,
    mem_groupItems_append, not_or, and_assoc]

/-! ## The invariant of the loop -/

/-- Two tasks whose resources do not conflict, either way round. -/
def Compatible (tables : UnicodeTables) (c d : Candidate) : Prop :=
  sgosResourceEntriesConflict tables c.entries d.entries = .ok false ∧
    sgosResourceEntriesConflict tables d.entries c.entries = .ok false

theorem compatible_of_eq {c d : Candidate}
    (h : sgosResourceEntriesConflict tables c.entries d.entries = .ok false) :
    Compatible tables c d :=
  ⟨h, sgosResourceEntriesConflict_false_comm h⟩

theorem Compatible.symm {c d : Candidate} (h : Compatible tables c d) : Compatible tables d c :=
  ⟨h.2, h.1⟩

/-- The memberships of tasks in a group state no more than a limit. -/
def CeilingAtMost (tasks : List Candidate) (group : Text) (limit : Nat) : Prop :=
  ∀ c ∈ tasks, ∀ membership ∈ c.memberships,
    membership.parentTaskId = group → membership.maximumParallel ≤ limit

/-- What the chosen tasks keep to.  The ceiling of a group is the number that
the memberships of the chosen tasks state for it. -/
structure Safe (tables : UnicodeTables) (active : List Candidate) (available : Nat)
    (selected : List Candidate) : Prop where
  slots : selected.length ≤ available
  running : ∀ c ∈ selected, ∀ a ∈ active, Compatible tables c a
  pairwise : selected.Pairwise (Compatible tables)
  groups : ∀ group limit, CeilingAtMost selected group limit →
    (groupItems (active ++ selected) group).length
      ≤ max limit (groupItems active group).length

variable {active : List Candidate} {available : Nat}

theorem Safe.nil : Safe tables active available [] where
  slots := Nat.zero_le _
  running := by simp
  pairwise := List.Pairwise.nil
  groups := by
    intro group limit _
    rw [List.append_nil]
    exact le_max_right ..

/-- **One choice** keeps the invariant. -/
theorem Safe.append {selected : List Candidate} {c : Candidate}
    (h : Safe tables active available selected) (hslot : selected.length < available)
    (hrunning : ∀ a ∈ active, Compatible tables c a)
    (hselected : ∀ d ∈ selected, Compatible tables c d)
    (hnodup : (c.memberships.map (·.parentTaskId)).Nodup)
    (hfree : fanoutBlocked active selected c = false) :
    Safe tables active available (selected ++ [c]) where
  slots := by rw [List.length_append]; exact hslot
  running := by
    intro d hd a ha
    rcases List.mem_append.mp hd with hd | hd
    · exact h.running d hd a ha
    · rw [List.mem_singleton] at hd
      exact hd ▸ hrunning a ha
  pairwise := by
    rw [List.pairwise_append]
    exact ⟨h.pairwise, List.pairwise_singleton .., fun d hd e he => by
      rw [List.mem_singleton] at he
      exact he ▸ (hselected d hd).symm⟩
  groups := by
    intro group limit hlimit
    rw [← List.append_assoc]
    by_cases hnew : ∃ item ∈ itemsIn c group, item ∉ groupItems (active ++ selected) group
    · obtain ⟨item, hitem, hnew⟩ := hnew
      obtain ⟨membership, hmem, rfl, rfl⟩ := mem_itemsIn.mp hitem
      rw [← Bool.not_eq_true, fanoutBlocked_iff] at hfree
      -- the item is new, so the group was not full
      have hroom : (groupItems (active ++ selected) membership.parentTaskId).length
          < membership.maximumParallel :=
        Nat.lt_of_not_le fun hle => hfree ⟨membership, hmem, hnew, hle⟩
      have hle := hlimit c (List.mem_append_right _ (List.mem_singleton_self c)) membership hmem rfl
      exact (groupItems_append_le hnodup _).trans (le_max_of_le_left (by omega))
    · push Not at hnew
      have hsub : groupItems (active ++ selected ++ [c]) group
          ⊆ groupItems (active ++ selected) group := by
        intro item hitem
        rcases mem_groupItems_append.mp hitem with hold | hin
        · exact hold
        · obtain ⟨d, hd, hin⟩ := mem_groupItems.mp hin
          rw [List.mem_singleton] at hd
          exact hnew item (hd ▸ hin)
      exact (List.subperm_of_subset (nodup_distinct _) hsub).length_le.trans
        (h.groups group limit fun d hd => hlimit d (List.mem_append_left _ hd))

/-- Why a ready task is passed over: it conflicts with a running or chosen
task, or it would bring a new item to a group that is full. -/
def Blocked (tables : UnicodeTables) (active selected : List Candidate) (c : Candidate) : Prop :=
  (∃ d ∈ active ++ selected, sgosResourceEntriesConflict tables c.entries d.entries = .ok true) ∨
    ∃ membership ∈ c.memberships,
      membership.itemKey ∉ groupItems active membership.parentTaskId ∧
        membership.maximumParallel
          ≤ (groupItems (active ++ selected) membership.parentTaskId).length

theorem Blocked.append {selected : List Candidate} {c : Candidate}
    (h : Blocked tables active selected c) (chosen : List Candidate) :
    Blocked tables active (selected ++ chosen) c := by
  rcases h with ⟨d, hd, hconflict⟩ | ⟨membership, hmem, hnew, hfull⟩
  · exact .inl ⟨d, by rw [← List.append_assoc]; exact List.mem_append_left _ hd, hconflict⟩
  · refine .inr ⟨membership, hmem, hnew, hfull.trans (groupItems_subset ?_ _)⟩
    rw [← List.append_assoc]
    exact List.subset_append_left ..

theorem blocked_of_fanoutBlocked {selected : List Candidate} {c : Candidate}
    (h : fanoutBlocked active selected c = true) : Blocked tables active selected c := by
  obtain ⟨membership, hmem, hnew, hfull⟩ := fanoutBlocked_iff.mp h
  exact .inr ⟨membership, hmem, fun hin => hnew (mem_groupItems_append.mpr (.inl hin)), hfull⟩

/-! ## The loop -/

/-- The courses of one turn of the loop: it stops, passes the task over, or
chooses it. -/
theorem selectTasks_cons {selected result rest : List Candidate} {next : Candidate}
    (h : selectTasks tables active available selected (next :: rest) = .ok result) :
    (available ≤ selected.length ∧ result = selected) ∨
    (Blocked tables active selected next ∧
      selectTasks tables active available selected rest = .ok result) ∨
    (selected.length < available ∧ (∀ a ∈ active, Compatible tables next a) ∧
      (∀ d ∈ selected, Compatible tables next d) ∧ fanoutBlocked active selected next = false ∧
      selectTasks tables active available (selected ++ [next]) rest = .ok result) := by
  rw [selectTasks] at h
  split at h
  · next hfull => exact .inl ⟨hfull, (Except.ok.inj h).symm⟩
  next hslot =>
  obtain ⟨activeConflict, hactive, h⟩ := bind_eq_ok_iff.mp h
  cases activeConflict with
  | true =>
      obtain ⟨d, hd, hdc⟩ := exists_of_someM_eq_true hactive
      exact .inr (.inl ⟨.inl ⟨d, List.mem_append_left _ hd, hdc⟩, h⟩)
  | false =>
      obtain ⟨conflict, hconflict, h⟩ := bind_eq_ok_iff.mp h
      cases conflict with
      | true =>
          obtain ⟨d, hd, hdc⟩ := exists_of_someM_eq_true hconflict
          exact .inr (.inl ⟨.inl ⟨d, List.mem_append_right _ hd, hdc⟩, h⟩)
      | false =>
          have hrunning := someM_eq_false_iff.mp hactive
          have hselected := someM_eq_false_iff.mp hconflict
          cases hfan : fanoutBlocked active selected next with
          | true =>
              rw [hfan] at h
              exact .inr (.inl ⟨blocked_of_fanoutBlocked hfan, h⟩)
          | false =>
              rw [hfan] at h
              exact .inr (.inr ⟨Nat.lt_of_not_le hslot,
                fun a ha => compatible_of_eq (hrunning a ha),
                fun d hd => compatible_of_eq (hselected d hd), rfl, h⟩)

/-- **The whole loop.** -/
theorem selectTasks_spec : ∀ {ready selected result : List Candidate},
    (∀ c ∈ ready, (c.memberships.map (·.parentTaskId)).Nodup) →
    Safe tables active available selected →
    selectTasks tables active available selected ready = .ok result →
    Safe tables active available result ∧
      (∃ chosen, result = selected ++ chosen ∧ chosen ⊆ ready) ∧
      ∀ c ∈ ready, c ∈ result ∨ available ≤ result.length ∨ Blocked tables active result c
  | [], selected, result, _, hsafe, h => by
      obtain rfl : selected = result := Except.ok.inj h
      exact ⟨hsafe, ⟨[], by simp, by simp⟩, by simp⟩
  | next :: rest, selected, result, hready, hsafe, h => by
      obtain ⟨hnodup, hrest⟩ := List.forall_mem_cons.mp hready
      rcases selectTasks_cons h with
        ⟨hfull, rfl⟩ | ⟨hblocked, h⟩ | ⟨hslot, hrunning, hselected, hfree, h⟩
      · exact ⟨hsafe, ⟨[], by simp, by simp⟩, fun c _ => .inr (.inl hfull)⟩
      · obtain ⟨hsafe', ⟨chosen, rfl, hsub⟩, hmax⟩ := selectTasks_spec hrest hsafe h
        exact ⟨hsafe', ⟨chosen, rfl, List.subset_cons_of_subset _ hsub⟩,
          List.forall_mem_cons.mpr ⟨.inr (.inr (hblocked.append chosen)), hmax⟩⟩
      · obtain ⟨hsafe', ⟨chosen, rfl, hsub⟩, hmax⟩ := selectTasks_spec hrest
          (hsafe.append hslot hrunning hselected hnodup hfree) h
        refine ⟨hsafe', ⟨next :: chosen, by simp, List.cons_subset_cons _ hsub⟩,
          List.forall_mem_cons.mpr ⟨.inl (by simp), hmax⟩⟩

/-! ## Ready and running tasks -/

/-- A task of the process that has not begun and whose predecessors permit it
to. -/
def IsReady (program : Program) (process : Process) (task : Task) : Prop :=
  task ∈ process.taskInstances ∧ startable task = true ∧
    ∃ readiness, sgosTaskReadiness program process task = .ok readiness ∧ readiness.ready = true

theorem mem_readyTasks {tasks : List Task} (h : readyTasks program process = .ok tasks)
    {task : Task} : task ∈ tasks ↔ IsReady program process task := by
  simp only [readyTasks, bind_eq_ok_iff, Except.ok.injEq] at h
  obtain ⟨readiness, hreadiness, rfl⟩ := h
  simp only [List.mem_map, List.mem_filter, Prod.exists, mem_zip_of_sequence hreadiness]
  constructor
  · rintro ⟨_, readiness, ⟨⟨⟨hmem, hstart⟩, hok⟩, hready⟩, rfl⟩
    exact ⟨hmem, hstart, readiness, hok, hready⟩
  · rintro ⟨hmem, hstart, readiness, hok, hready⟩
    exact ⟨task, readiness, ⟨⟨⟨hmem, hstart⟩, hok⟩, hready⟩, rfl⟩

/-- The running tasks with what they use. -/
def activeCandidates (tables : UnicodeTables) (program : Program) (process : Process) :
    List Candidate :=
  (activeTasks process).filterMap fun task => (candidate tables program task).toOption

theorem filterMap_toOption {tasks : List Task} {candidates : List Candidate}
    (h : sequence (tasks.map (candidate tables program)) = .ok candidates) :
    (tasks.filterMap fun task => (candidate tables program task).toOption) = candidates := by
  have hmap : tasks.filterMap (Except.toOption ∘ candidate tables program)
      = (tasks.map (candidate tables program)).filterMap Except.toOption :=
    List.filterMap_map.symm
  rw [sequence_eq_ok h, List.filterMap_map] at hmap
  exact hmap.trans (List.filterMap_some)

theorem candidate_task {task : Task} {c : Candidate}
    (h : candidate tables program task = .ok c) :
    c.task = task ∧ (c.memberships.map (·.parentTaskId)).Nodup := by
  unfold candidate at h
  split at h
  · cases h
  simp only [taskFanoutMemberships, bind_eq_ok_iff, failIf_eq_ok_iff, not_not, exists_const,
    Except.ok.injEq] at h
  obtain ⟨entries, -, memberships, ⟨-, hnodup, rfl⟩, rfl⟩ := h
  exact ⟨rfl, hnodup⟩

theorem map_task_of_sequence {tasks : List Task} {candidates : List Candidate}
    (h : sequence (tasks.map (candidate tables program)) = .ok candidates) :
    candidates.map (·.task) = tasks := by
  have heq := sequence_eq_ok h
  clear h
  induction tasks generalizing candidates with
  | nil => cases candidates <;> simp_all
  | cons task tasks ih =>
      cases candidates with
      | nil => cases heq
      | cons c candidates =>
          obtain ⟨hhead, htail⟩ := List.cons.inj heq
          rw [List.map_cons, (candidate_task hhead).1, ih htail]

theorem exists_candidate {tasks : List Task} {candidates : List Candidate}
    (h : sequence (tasks.map (candidate tables program)) = .ok candidates) {task : Task}
    (htask : task ∈ tasks) : ∃ c ∈ candidates, candidate tables program task = .ok c := by
  have hmem := List.mem_map_of_mem (f := candidate tables program) htask
  rw [sequence_eq_ok h, List.mem_map] at hmem
  obtain ⟨c, hc, heq⟩ := hmem
  exact ⟨c, hc, heq.symm⟩

/-! ## The plan -/

/-- What a plan keeps to.  With no more slots, no more conflicts and no more
full groups than before, every chosen task is ready. -/
structure SafeDispatch (tables : UnicodeTables) (program : Program) (process : Process)
    (maximumParallel : Nat) (selected : List Candidate) : Prop where
  ready : ∀ c ∈ selected, IsReady program process c.task ∧
    candidate tables program c.task = .ok c
  slots : (activeTasks process).length + selected.length
    ≤ max maximumParallel (activeTasks process).length
  running : ∀ c ∈ selected, ∀ a ∈ activeCandidates tables program process, Compatible tables c a
  pairwise : selected.Pairwise (Compatible tables)
  groups : ∀ group limit, CeilingAtMost selected group limit →
    (groupItems (activeCandidates tables program process ++ selected) group).length
      ≤ max limit (groupItems (activeCandidates tables program process) group).length

/-- A ready task stays behind only for a reason. -/
def MaximalDispatch (tables : UnicodeTables) (program : Program) (process : Process)
    (maximumParallel : Nat) (selected : List Candidate) : Prop :=
  ∀ task, IsReady program process task →
    (∃ c ∈ selected, c.task = task) ∨
      maximumParallel ≤ (activeTasks process).length + selected.length ∨
        ∃ c, candidate tables program task = .ok c ∧
          Blocked tables (activeCandidates tables program process) selected c

theorem SafeDispatch.nil (tables : UnicodeTables) (program : Program) (process : Process)
    (maximumParallel : Nat) : SafeDispatch tables program process maximumParallel [] where
  ready := by simp
  slots := le_max_right ..
  running := by simp
  pairwise := List.Pairwise.nil
  groups := by
    intro group limit _
    rw [List.append_nil]
    exact le_max_right ..

/-- **Dispatch** is safe; and it is maximal while the process is not
suspended, when it starts nothing. -/
theorem deterministicSgosDispatchPlan_spec {maximumParallel : Nat} {plan : List PlanEntry}
    (h : deterministicSgosDispatchPlan tables program process maximumParallel = .ok plan) :
    ∃ selected : List Candidate, plan = selected.map (·.planEntry) ∧
      SafeDispatch tables program process maximumParallel selected ∧
      (suspended process.status = true → selected = []) ∧
      (suspended process.status = false →
        (activeCandidates tables program process).map (·.task) = activeTasks process ∧
        MaximalDispatch tables program process maximumParallel selected) := by
  simp only [deterministicSgosDispatchPlan, bind_eq_ok_iff, failIf_eq_ok_iff, exists_const] at h
  obtain ⟨-, h⟩ := h
  cases hstatus : suspended process.status with
  | true =>
      rw [hstatus, if_pos rfl] at h
      exact ⟨[], (Except.ok.inj h).symm, .nil .., fun _ => rfl, by simp⟩
  | false =>
  simp only [hstatus, Bool.false_eq_true, if_false, bind_eq_ok_iff] at h
  obtain ⟨_, -, active, hactive, h⟩ := h
  obtain rfl : activeCandidates tables program process = active := filterMap_toOption hactive
  have hrunning := map_task_of_sequence hactive
  have hlength := congrArg List.length hrunning
  rw [List.length_map] at hlength
  split at h
  · next hfull =>
    refine ⟨[], (Except.ok.inj h).symm, .nil .., fun _ => rfl, fun _ => ⟨hrunning, ?_⟩⟩
    exact fun task _ => .inr (.inl (by simp only [List.length_nil]; omega))
  · simp only [bind_eq_ok_iff, Except.ok.injEq] at h
    obtain ⟨tasks, htasks, ready, hready, selected, hselect, rfl⟩ := h
    obtain ⟨hsafe, ⟨chosen, hchosen, hsub⟩, hmax⟩ := selectTasks_spec (fun c hc => by
      obtain ⟨task, -, hc⟩ := (mem_of_sequence hready).mp ((List.mem_insertionSort _).mp hc)
      exact (candidate_task hc).2) Safe.nil hselect
    have hslots := hsafe.slots
    refine ⟨selected, rfl, ⟨fun c hc => ?_, ?_, hsafe.running, hsafe.pairwise, hsafe.groups⟩,
      by simp, fun _ => ⟨hrunning, fun task htask => ?_⟩⟩
    · rw [hchosen, List.nil_append] at hc
      obtain ⟨task, hmem, hc⟩ :=
        (mem_of_sequence hready).mp ((List.mem_insertionSort _).mp (hsub hc))
      rw [(candidate_task hc).1]
      exact ⟨(mem_readyTasks htasks).mp hmem, hc⟩
    · omega
    · obtain ⟨c, hmem, hc⟩ := exists_candidate hready ((mem_readyTasks htasks).mpr htask)
      rcases hmax c ((List.mem_insertionSort _).mpr hmem) with hin | hfull | hblocked
      · exact .inl ⟨c, hin, (candidate_task hc).1⟩
      · exact .inr (.inl (by omega))
      · exact .inr (.inr ⟨c, hc, hblocked⟩)

/-! ## Two tasks that write one file -/

/-- A Program of two agents that write one file. -/
def sampleProgram : Program :=
  let template (id : Text) : Template :=
    ⟨id, .agent, ⟨[], [js "src/a.mjs"], [], []⟩, ⟨[], none, false⟩⟩
  ⟨[template (js "first"), template (js "second")], []⟩

/-- A process of the Program in which nothing has begun. -/
def sampleProcess (status : ProcessStatus) : Process :=
  let task (id : Text) : Task := ⟨id, id, .planned, [], [], none⟩
  ⟨status, [], [task (js "first"), task (js "second")]⟩

theorem deterministicSgosDispatchPlan_spec_sample :
    ∃ selected : List Candidate,
      [⟨js "first", js "first", .agent⟩] = selected.map (·.planEntry) ∧
      SafeDispatch asciiTables sampleProgram (sampleProcess .running) 2 selected ∧
      (suspended (sampleProcess .running).status = true → selected = []) ∧
      (suspended (sampleProcess .running).status = false →
        (activeCandidates asciiTables sampleProgram (sampleProcess .running)).map (·.task)
          = activeTasks (sampleProcess .running) ∧
        MaximalDispatch asciiTables sampleProgram (sampleProcess .running) 2 selected) :=
  deterministicSgosDispatchPlan_spec rfl

/-- A paused process: nothing is started, and nothing hinders the first task. -/
theorem deterministicSgosDispatchPlan_paused :
    deterministicSgosDispatchPlan asciiTables sampleProgram (sampleProcess .paused) 2 = .ok [] ∧
      ¬ MaximalDispatch asciiTables sampleProgram (sampleProcess .paused) 2 [] := by
  refine ⟨rfl, fun hmax => ?_⟩
  have hready : IsReady sampleProgram (sampleProcess .paused)
      ⟨js "first", js "first", .planned, [], [], none⟩ :=
    ⟨List.mem_cons_self .., rfl, _, rfl, rfl⟩
  rcases hmax _ hready with ⟨c, hc, -⟩ | hfull | ⟨c, hc, hblocked⟩
  · cases hc
  · exact absurd hfull (by decide)
  · cases hc
    rcases hblocked with ⟨d, hd, -⟩ | ⟨membership, hmem, -⟩
    · cases hd
    · cases hmem

end Sgos

end SingularityFlow
