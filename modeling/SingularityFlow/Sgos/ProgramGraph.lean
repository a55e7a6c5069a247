/-
# The graph of a Program

`graphFacts` admits a Program whose tasks and edges stand in their canonical order and
whose graph has no cycle, and gives its tasks an order in which edges lead on.  Over
that order, from its end, `reachabilityRows` packs what each task reaches into words of
32 bits.

`graphFacts_sound` says that both are what they are for: the order has every task once
and edges go forward in it, and a bit is set exactly where there is a path.
-/
import SingularityFlow.Sgos.Resources
import SingularityFlow.Lib.Collections
import SingularityFlow.Lib.Kahn
import SingularityFlow.Lib.Search
import Mathlib.Data.List.Sort

namespace SingularityFlow

open Ecma

namespace Sgos

/-! ## Bits -/

abbrev Word := BitVec 32

def bitsetWords (taskCount : Nat) : Nat := (taskCount + 31) / 32

/-- `1 << (taskIndex & 31)`, by its bits; the sign does not matter for them. -/
def taskBit (taskIndex : Nat) : Word := 1#32 <<< (taskIndex % 32)

def setTaskBit (bits : List Word) (taskIndex : Nat) : List Word :=
  bits.set (taskIndex / 32) (bits.getD (taskIndex / 32) 0 ||| taskBit taskIndex)

def hasTaskBit (bits : List Word) (taskIndex : Nat) : Bool :=
  bits.getD (taskIndex / 32) 0 &&& taskBit taskIndex ≠ 0

def orTaskBits (target source : List Word) : List Word :=
  target.mapIdx fun index word => word ||| source.getD index 0

/-! ## The graph -/

structure ProgramTask where
  taskTemplateId : Text
  opcode : Text
deriving DecidableEq

/-- An edge; `conditional` where its condition is not null. -/
structure ProgramEdge where
  source : Text
  target : Text
  conditional : Bool
deriving DecidableEq

structure GvmProgram where
  taskTemplates : List ProgramTask
  edges : List ProgramEdge
deriving DecidableEq

structure GraphFacts where
  taskIds : List Text
  forward : Text → List Text
  reverse : Text → List Text
  topologicalOrder : List Text
  endTaskIds : List Text

def programFailure (code : String) (message : Text) : Failure := .singularityFlow message (some (js code))

def sortCodePoints (values : List Text) : List Text :=
  values.insertionSort fun a b => compareSgosCodePoints a b ≠ .gt

def assertCanonicalOrder (values : List Text) (label : String) : Except Failure Unit :=
  failIf (¬ values.IsChain fun a b => compareSgosCodePoints a b = .lt)
    (programFailure "SGOS_PROGRAM_NOT_CANONICAL"
      (js label ++ js " must be strictly ordered without duplicates."))

def assertEdge (taskIds : List Text) (edge : ProgramEdge) : Except Failure Unit := do
  failIf (edge.conditional = true) (programFailure "SGOS_PROGRAM_SEMANTICS_UNSUPPORTED"
    (js "Conditional GVM edges are not executable in the sequential SGOS profile."))
  failIf (edge.source ∉ taskIds ∨ edge.target ∉ taskIds) (programFailure "SGOS_PROGRAM_EDGE_UNKNOWN_TASK"
    (js "Program edge '" ++ edge.source ++ js "' -> '" ++ edge.target ++ js "' references an unknown task."))
  failIf (edge.source = edge.target) (programFailure "SGOS_PROGRAM_GRAPH_CYCLE"
    (js "Task '" ++ edge.source ++ js "' depends on itself."))

def forwardOf (edges : List ProgramEdge) (id : Text) : List Text :=
  sortCodePoints ((edges.filter (·.source = id)).map ProgramEdge.target)

def reverseOf (edges : List ProgramEdge) (id : Text) : List Text :=
  sortCodePoints ((edges.filter (·.target = id)).map ProgramEdge.source)

/-- Kahn's algorithm with the ready tasks sorted; a turn for each task is enough. -/
def topologicalOrderOf (taskIds : List Text) (edges : List ProgramEdge) : Option (List Text) :=
  let indegree := fun id => (reverseOf edges id).length
  Kahn.turns (forwardOf edges) sortCodePoints taskIds.length indegree
    (sortCodePoints (taskIds.filter fun id => indegree id = 0)) []

def terminalInvalid (message : Text) : Failure := programFailure "SGOS_PROGRAM_TERMINAL_INVALID" message

def graphFacts (program : GvmProgram) : Except Failure GraphFacts := do
  let taskIds := program.taskTemplates.map ProgramTask.taskTemplateId
  failIf ((distinct taskIds).length ≠ taskIds.length) (programFailure "SGOS_PROGRAM_TASK_DUPLICATE"
    (js "GVM Program contains duplicate taskTemplateId values."))
  assertCanonicalOrder taskIds "gvm-program.taskTemplates"
  let _ ← sequence (program.edges.map (assertEdge taskIds))
  assertCanonicalOrder (program.edges.map fun edge => edge.source ++ [0] ++ edge.target) "gvm-program.edges"
  let order := (topologicalOrderOf taskIds program.edges).getD []
  failIf (order.length ≠ taskIds.length) (programFailure "SGOS_PROGRAM_GRAPH_CYCLE"
    (js "GVM Program dependency graph contains a cycle."))
  let endTaskIds := sortCodePoints
    ((program.taskTemplates.filter (·.opcode = js "END")).map ProgramTask.taskTemplateId)
  failIf (endTaskIds = []) (terminalInvalid (js "GVM Program has no END task."))
  let leading := endTaskIds.filter fun id => forwardOf program.edges id ≠ []
  failIf (leading ≠ [])
    (terminalInvalid (js "END task '" ++ leading.headD [] ++ js "' has successors."))
  let canReachEnd := search (program.edges.map fun edge => (edge.target, edge.source)) (fun _ _ => true) endTaskIds
  failIf (∃ id ∈ taskIds, id ∉ canReachEnd)
    (terminalInvalid (js "Every GVM task must be able to reach an END task."))
  .ok ⟨taskIds, forwardOf program.edges, reverseOf program.edges, order, endTaskIds⟩

/-! ## Rows -/

/-- The row of a task, from those of its successors. -/
def rowOf (facts : GraphFacts) (rows : List (List Word)) (id : Text) (row : List Word) : List Word :=
  (facts.forward id).foldl
    (fun row successor =>
      let index := facts.taskIds.idxOf successor
      orTaskBits (setTaskBit row index) (rows.getD index []))
    row

def reachabilityRows (facts : GraphFacts) : List (List Word) :=
  let count := facts.taskIds.length
  facts.topologicalOrder.reverse.foldl
    (fun rows id =>
      let index := facts.taskIds.idxOf id
      rows.set index (rowOf facts rows id (rows.getD index [])))
    (List.replicate count (List.replicate (bitsetWords count) 0))

/-! ## Words -/

theorem hasTaskBit_iff {bits : List Word} {index : Nat} :
    hasTaskBit bits index = true ↔ (bits.getD (index / 32) 0).getLsbD (index % 32) = true := by
  have hbound : index % 32 < 32 := Nat.mod_lt _ (by decide)
  unfold hasTaskBit taskBit
  rw [decide_eq_true_eq, ← BitVec.twoPow_eq, BitVec.and_twoPow]
  split
  · next h =>
      refine iff_of_true (fun hzero => ?_) h
      have := congrArg (BitVec.getLsbD · (index % 32)) hzero
      simp [hbound] at this
  · next h => exact iff_of_false (fun hne => hne rfl) h

theorem hasTaskBit_replicate {words index : Nat} : hasTaskBit (List.replicate words 0) index = false := by
  rw [Bool.eq_false_iff]
  intro h
  rw [hasTaskBit_iff, List.getD_eq_getElem?_getD, List.getElem?_replicate] at h
  split at h <;> simp at h

theorem hasTaskBit_setTaskBit {bits : List Word} {index other : Nat} (hindex : index / 32 < bits.length) :
    hasTaskBit (setTaskBit bits index) other = true ↔ other = index ∨ hasTaskBit bits other = true := by
  have hbound : index % 32 < 32 := Nat.mod_lt _ (by decide)
  have hbound' : other % 32 < 32 := Nat.mod_lt _ (by decide)
  rw [hasTaskBit_iff, hasTaskBit_iff]
  unfold setTaskBit taskBit
  rw [List.getD_eq_getElem?_getD, List.getElem?_set]
  by_cases hword : index / 32 = other / 32
  · rw [if_pos hword, if_pos hindex, Option.getD_some, BitVec.getLsbD_or, ← BitVec.twoPow_eq,
      BitVec.getLsbD_twoPow, hword]
    simp only [hbound, decide_true, Bool.true_and, Bool.or_eq_true, decide_eq_true_eq]
    rw [or_comm]
    refine or_congr_left ?_
    constructor
    · intro hbit
      rw [← Nat.div_add_mod other 32, ← hword, ← hbit, Nat.div_add_mod]
    · exact fun h => h ▸ rfl
  · rw [if_neg hword, ← List.getD_eq_getElem?_getD, or_iff_right]
    exact fun h => hword (h ▸ rfl)

theorem hasTaskBit_orTaskBits {target source : List Word} (hlength : target.length = source.length) {index : Nat} :
    hasTaskBit (orTaskBits target source) index = true ↔
      hasTaskBit target index = true ∨ hasTaskBit source index = true := by
  rw [hasTaskBit_iff, hasTaskBit_iff, hasTaskBit_iff]
  unfold orTaskBits
  have htarget : target.getD (index / 32) 0 = (target[index / 32]?).getD 0 := List.getD_eq_getElem?_getD
  rw [List.getD_eq_getElem?_getD, List.getElem?_mapIdx, htarget]
  cases hword : target[index / 32]? with
  | none =>
      have hlong : source[index / 32]? = none := by
        rw [List.getElem?_eq_none_iff] at hword ⊢
        omega
      rw [List.getD_eq_getElem?_getD, hlong]
      simp
  | some word =>
      rw [Option.map_some, Option.getD_some, Option.getD_some, BitVec.getLsbD_or, Bool.or_eq_true]

@[simp] theorem length_setTaskBit (bits : List Word) (index : Nat) : (setTaskBit bits index).length = bits.length :=
  List.length_set ..

@[simp] theorem length_orTaskBits (target source : List Word) : (orTaskBits target source).length = target.length :=
  List.length_mapIdx ..

/-! ## The rows -/

section Rows

variable {facts : GraphFacts} {edge : Text → Text → Prop}

/-- The rows of the tasks behind some place of the order are done, the others empty. -/
structure RowsDone (facts : GraphFacts) (edge : Text → Text → Prop) (done : List Text) (rows : List (List Word)) :
    Prop where
  count : rows.length = facts.taskIds.length
  words : ∀ index < facts.taskIds.length, (rows.getD index []).length = bitsetWords facts.taskIds.length
  bits : ∀ id ∈ done, ∀ other ∈ facts.taskIds,
    hasTaskBit (rows.getD (facts.taskIds.idxOf id) []) (facts.taskIds.idxOf other) = true ↔
      Relation.TransGen edge id other
  empty : ∀ id ∈ facts.taskIds, id ∉ done →
    rows.getD (facts.taskIds.idxOf id) [] = List.replicate (bitsetWords facts.taskIds.length) 0

theorem word_lt {count index : Nat} (h : index < count) : index / 32 < bitsetWords count := by
  unfold bitsetWords
  omega

/-- What some successors add to a row. -/
theorem foldl_rowOf {rows : List (List Word)} {done : List Text} (hdone : RowsDone facts edge done rows)
    (successors : List Text) : ∀ row : List Word, (∀ s ∈ successors, s ∈ facts.taskIds ∧ s ∈ done) →
      row.length = bitsetWords facts.taskIds.length →
        (successors.foldl (fun row successor =>
            orTaskBits (setTaskBit row (facts.taskIds.idxOf successor))
              (rows.getD (facts.taskIds.idxOf successor) [])) row).length = bitsetWords facts.taskIds.length ∧
        ∀ other ∈ facts.taskIds, (hasTaskBit (successors.foldl (fun row successor =>
            orTaskBits (setTaskBit row (facts.taskIds.idxOf successor))
              (rows.getD (facts.taskIds.idxOf successor) [])) row) (facts.taskIds.idxOf other) = true ↔
          hasTaskBit row (facts.taskIds.idxOf other) = true ∨
            ∃ s ∈ successors, s = other ∨ Relation.TransGen edge s other) := by
  induction successors with
  | nil => exact fun _ _ hrow => ⟨hrow, fun _ _ => by simp⟩
  | cons successor successors ih =>
      intro row hsuccessors hrow
      obtain ⟨⟨hid, hbehind⟩, hrest⟩ := List.forall_mem_cons.mp hsuccessors
      have hindex : facts.taskIds.idxOf successor < facts.taskIds.length := List.idxOf_lt_length_of_mem hid
      have hset : facts.taskIds.idxOf successor / 32 < row.length := hrow ▸ word_lt hindex
      have hlength : (setTaskBit row (facts.taskIds.idxOf successor)).length
          = (rows.getD (facts.taskIds.idxOf successor) []).length := by
        rw [length_setTaskBit, hrow, hdone.words _ hindex]
      obtain ⟨hwords, hbits⟩ := ih (orTaskBits (setTaskBit row (facts.taskIds.idxOf successor))
        (rows.getD (facts.taskIds.idxOf successor) [])) hrest
        (by rw [length_orTaskBits, length_setTaskBit, hrow])
      refine ⟨hwords, fun other hother => ?_⟩
      have hsame : facts.taskIds.idxOf other = facts.taskIds.idxOf successor ↔ successor = other :=
        (List.idxOf_inj hother).trans eq_comm
      rw [List.foldl_cons, hbits other hother, hasTaskBit_orTaskBits hlength, hasTaskBit_setTaskBit hset,
        hdone.bits successor hbehind other hother, hsame]
      simp only [List.mem_cons, exists_eq_or_imp]
      rw [or_assoc, or_assoc, or_left_comm, or_assoc]

/-- **The rows of a graph in whose order edges lead on.** -/
theorem rowsDone_foldr (facts : GraphFacts) (edge : Text → Text → Prop)
    (hedge : ∀ id s, s ∈ facts.forward id ↔ edge id s)
    (hknown : ∀ id s, edge id s → s ∈ facts.taskIds) : ∀ rest : List Text,
      rest.Nodup → (∀ id ∈ rest, id ∈ facts.taskIds) →
      (∀ first id last, rest = first ++ id :: last → ∀ s, edge id s → s ∈ last) →
        RowsDone facts edge rest (rest.foldr
          (fun id rows => rows.set (facts.taskIds.idxOf id)
            (rowOf facts rows id (rows.getD (facts.taskIds.idxOf id) [])))
          (List.replicate facts.taskIds.length
            (List.replicate (bitsetWords facts.taskIds.length) 0))) := by
  intro rest
  induction rest with
  | nil =>
      intro _ _ _
      refine ⟨List.length_replicate, fun index hindex => ?_, nofun, fun id hid _ => ?_⟩
      · rw [List.foldr_nil, List.getD_eq_getElem?_getD, List.getElem?_replicate, if_pos hindex, Option.getD_some,
          List.length_replicate]
      · rw [List.foldr_nil, List.getD_eq_getElem?_getD, List.getElem?_replicate,
          if_pos (List.idxOf_lt_length_of_mem hid), Option.getD_some]
  | cons id rest ih =>
      intro hnodup hids hlast
      obtain ⟨hnot, hnodup⟩ := List.nodup_cons.mp hnodup
      obtain ⟨hid, hrest⟩ := List.forall_mem_cons.mp hids
      have hdone := ih hnodup hrest fun first id last heq => hlast (_ :: first) id last (congrArg _ heq)
      have hindex : facts.taskIds.idxOf id < facts.taskIds.length := List.idxOf_lt_length_of_mem hid
      rw [List.foldr_cons]
      generalize rest.foldr _ _ = rows at hdone ⊢
      have hempty := hdone.empty id hid hnot
      obtain ⟨hwords, hbits⟩ := foldl_rowOf hdone (facts.forward id) (rows.getD (facts.taskIds.idxOf id) [])
        (fun s hs => ⟨hknown id s ((hedge id s).mp hs), hlast [] id rest rfl s ((hedge id s).mp hs)⟩)
        (hdone.words _ hindex)
      have hself : (rows.set (facts.taskIds.idxOf id)
          (rowOf facts rows id (rows.getD (facts.taskIds.idxOf id) []))).getD (facts.taskIds.idxOf id) []
            = rowOf facts rows id (rows.getD (facts.taskIds.idxOf id) []) := by
        rw [List.getD_eq_getElem?_getD, List.getElem?_set_self (hdone.count ▸ hindex), Option.getD_some]
      have hother : ∀ index, index ≠ facts.taskIds.idxOf id →
          (rows.set (facts.taskIds.idxOf id) (rowOf facts rows id (rows.getD (facts.taskIds.idxOf id) []))).getD
            index [] = rows.getD index [] := by
        intro index hne
        rw [List.getD_eq_getElem?_getD, List.getElem?_set_ne hne.symm, ← List.getD_eq_getElem?_getD]
      refine ⟨(List.length_set ..).trans hdone.count, fun index hlt => ?_, fun first hfirst other hmem => ?_,
        fun first hfirst hundone => ?_⟩
      · by_cases heq : index = facts.taskIds.idxOf id
        · rw [heq, hself]
          exact hwords
        · rw [hother index heq]
          exact hdone.words index hlt
      · by_cases heq : first = id
        · subst heq
          rw [hself]
          refine (hbits other hmem).trans ?_
          rw [hempty, hasTaskBit_replicate, Relation.TransGen.head'_iff]
          simp only [Bool.false_eq_true, false_or, hedge, Relation.reflTransGen_iff_eq_or_transGen]
          exact exists_congr fun s => and_congr_right fun _ => or_congr_left eq_comm
        · rw [hother _ (mt (List.idxOf_inj (hids first hfirst)).mp heq)]
          exact hdone.bits first ((List.mem_cons.mp hfirst).resolve_left heq) other hmem
      · rw [List.mem_cons, not_or] at hundone
        rw [hother _ (mt (List.idxOf_inj hfirst).mp hundone.1)]
        exact hdone.empty first hfirst hundone.2

end Rows

/-! ## The order -/

section Order

variable {edges : List ProgramEdge} {taskIds : List Text}

theorem perm_sortCodePoints (values : List Text) : (sortCodePoints values).Perm values :=
  List.perm_insertionSort _ values

theorem mem_forwardOf {id target : Text} :
    target ∈ forwardOf edges id ↔ ∃ edge ∈ edges, edge.source = id ∧ edge.target = target := by
  rw [forwardOf, (perm_sortCodePoints _).mem_iff, List.mem_map]
  simp only [List.mem_filter, decide_eq_true_eq, and_assoc]

/-- The edges into a task, by where they come from. -/
theorem length_reverseOf (hnodup : taskIds.Nodup) (hknown : ∀ edge ∈ edges, edge.source ∈ taskIds) (id : Text) :
    (reverseOf edges id).length
      = (taskIds.map fun source => (forwardOf edges source).countP fun target => decide (target = id)).sum := by
  rw [reverseOf, (perm_sortCodePoints _).length_eq, List.length_map]
  have hcount : ∀ source, ((forwardOf edges source).countP fun target => decide (target = id))
      = edges.countP fun edge => edge.source = source && edge.target = id := by
    intro source
    rw [forwardOf, (perm_sortCodePoints _).countP_eq, List.countP_map, List.countP_filter]
    refine List.countP_congr fun edge _ => ?_
    simp [and_comm]
  simp only [hcount, ← List.countP_eq_length_filter]
  clear hcount
  induction edges with
  | nil => simp
  | cons edge edges ih =>
      obtain ⟨hsource, hrest⟩ := List.forall_mem_cons.mp hknown
      have hsum : ∀ (ids : List Text), ids.Nodup →
          (ids.map fun source => List.countP (fun e : ProgramEdge => e.source = source && e.target = id)
            (edge :: edges)).sum
            = (ids.map fun source => edges.countP fun e => e.source = source && e.target = id).sum
              + if edge.source ∈ ids ∧ edge.target = id then 1 else 0 := by
        intro ids hids
        induction ids with
        | nil => simp
        | cons first ids ihids =>
            obtain ⟨hfirst, hids⟩ := List.nodup_cons.mp hids
            rw [List.map_cons, List.sum_cons, ihids hids, List.map_cons, List.sum_cons, List.countP_cons]
            by_cases heq : edge.source = first
            · subst heq
              simp [hfirst]
              omega
            · simp [heq]
              omega
      rw [List.countP_cons, ih hrest, hsum taskIds hnodup]
      simp [hsource]

/-- Kahn's algorithm begins with the tasks that no edge leads to. -/
theorem sorted_start (hnodup : taskIds.Nodup) (hknown : ∀ edge ∈ edges, edge.source ∈ taskIds) :
    Kahn.Sorted taskIds (forwardOf edges) (fun id => (reverseOf edges id).length)
      (sortCodePoints (taskIds.filter fun id => (reverseOf edges id).length = 0)) [] where
  nodup := (perm_sortCodePoints _).nodup_iff.mpr (hnodup.filter _)
  mem v hv := (List.mem_filter.mp ((perm_sortCodePoints _).mem_iff.mp hv)).1
  counts v _ := by
    rw [length_reverseOf hnodup hknown, List.filter_eq_self.mpr fun _ _ => by simp]
    rfl
  taken v hv := by
    rw [List.nil_append, (perm_sortCodePoints _).mem_iff, List.mem_filter, and_iff_right hv, decide_eq_true_eq]
  behind before v after h := by
    cases (List.append_eq_nil_iff.mp h.symm).2

/-- The order of the tasks of a graph: what Kahn's algorithm leaves. -/
theorem topologicalOrderOf_sorted (hnodup : taskIds.Nodup)
    (hknown : ∀ edge ∈ edges, edge.source ∈ taskIds ∧ edge.target ∈ taskIds) :
    ∃ indegree order, topologicalOrderOf taskIds edges = some order ∧
      Kahn.Sorted taskIds (forwardOf edges) indegree [] order := by
  refine Kahn.turns_sorted perm_sortCodePoints hnodup (fun id _ target htarget => ?_) _
    (sorted_start hnodup fun edge hedge => (hknown edge hedge).1) (Nat.le_refl _)
  obtain ⟨edge, hedge, -, rfl⟩ := mem_forwardOf.mp htarget
  exact (hknown edge hedge).2

end Order

/-! ## What `graphFacts` admits -/

theorem nodup_of_length_distinct {α : Type} [DecidableEq α] : ∀ {l : List α},
    (distinct l).length = l.length → l.Nodup
  | [], _ => List.nodup_nil
  | a :: l, h => by
      rw [distinct, List.length_cons, List.length_cons, Nat.add_right_cancel_iff] at h
      have hfilter := List.length_filter_le (fun b => decide (b ≠ a)) (distinct l)
      have hle : (distinct l).length ≤ l.length := (nodup_distinct l).subperm (fun _ => mem_distinct.mp) |>.length_le
      have hall := List.length_filter_eq_length_iff.mp (show (List.filter (fun b => decide (b ≠ a))
        (distinct l)).length = (distinct l).length by omega)
      refine List.nodup_cons.mpr ⟨fun hmem => ?_, nodup_of_length_distinct (by omega)⟩
      exact of_decide_eq_true (hall a (mem_distinct.mpr hmem)) rfl

/-- An edge of a Program leads from a task to another. -/
def GvmProgram.Leads (program : GvmProgram) (source target : Text) : Prop :=
  ∃ edge ∈ program.edges, edge.source = source ∧ edge.target = target

theorem graphFacts_eq_ok {program : GvmProgram} {facts : GraphFacts} (h : graphFacts program = .ok facts) :
    facts.taskIds = program.taskTemplates.map ProgramTask.taskTemplateId ∧ facts.taskIds.Nodup ∧
      (∀ edge ∈ program.edges, edge.source ∈ facts.taskIds ∧ edge.target ∈ facts.taskIds) ∧
      facts.forward = forwardOf program.edges ∧
      facts.topologicalOrder = (topologicalOrderOf facts.taskIds program.edges).getD [] ∧
      facts.topologicalOrder.length = facts.taskIds.length := by
  unfold graphFacts at h
  simp only [bind_eq_ok_iff, failIf_eq_ok_iff] at h
  obtain ⟨_, hduplicate, _, -, checked, hedges, _, -, _, hcycle, _, -, _, -, _, -, heq⟩ := h
  obtain rfl := Except.ok.inj heq
  refine ⟨rfl, nodup_of_length_distinct (not_not.mp hduplicate), fun edge hedge => ?_, rfl, rfl, not_not.mp hcycle⟩
  obtain ⟨_, hchecked⟩ := ok_of_mem_sequence hedges _ (List.mem_map_of_mem hedge)
  unfold assertEdge at hchecked
  simp only [bind_eq_ok_iff, failIf_eq_ok_iff] at hchecked
  obtain ⟨_, -, _, hknown, -⟩ := hchecked
  exact ⟨not_not.mp fun h => hknown (.inl h), not_not.mp fun h => hknown (.inr h)⟩

/-- **Bitset reachability is graph reachability**, and the order has every task once,
with edges that go forward. -/
theorem graphFacts_sound (program : GvmProgram) (facts : GraphFacts) (h : graphFacts program = .ok facts) :
    (∀ i j source target, facts.taskIds[i]? = some source → facts.taskIds[j]? = some target →
      (hasTaskBit ((reachabilityRows facts).getD i []) j = true ↔
        Relation.TransGen program.Leads source target)) ∧
      facts.topologicalOrder.Perm (program.taskTemplates.map ProgramTask.taskTemplateId) ∧
      ∀ edge ∈ program.edges,
        facts.topologicalOrder.idxOf edge.source < facts.topologicalOrder.idxOf edge.target := by
  obtain ⟨htaskIds, hnodup, hknown, hforward, horder, hlength⟩ := graphFacts_eq_ok h
  obtain ⟨indegree, order, hsome, hsorted⟩ := topologicalOrderOf_sorted hnodup hknown
  rw [hsome, Option.getD_some] at horder
  subst horder
  have hperm := hsorted.perm hlength
  have hlast : ∀ edge ∈ program.edges,
      facts.topologicalOrder.idxOf edge.source < facts.topologicalOrder.idxOf edge.target := by
    intro edge hedge
    refine hsorted.idxOf_lt (hknown edge hedge).1 (mem_forwardOf.mpr ⟨edge, hedge, rfl, rfl⟩) ?_
    exact hperm.mem_iff.mpr (hknown edge hedge).2
  refine ⟨?_, htaskIds ▸ hperm, hlast⟩
  have hrows := rowsDone_foldr facts program.Leads
    (fun id s => by rw [hforward, mem_forwardOf]; rfl)
    (fun id s hleads => by
      obtain ⟨edge, hedge, -, rfl⟩ := hleads
      exact (hknown edge hedge).2)
    facts.topologicalOrder (hperm.nodup_iff.mpr hnodup) (fun id hid => hperm.mem_iff.mp hid) ?_
  · intro i j source target hsource htarget
    have hidx : ∀ {k : Nat} {id : Text}, facts.taskIds[k]? = some id → facts.taskIds.idxOf id = k := by
      intro k id hid
      obtain ⟨hk, rfl⟩ := List.getElem?_eq_some_iff.mp hid
      exact hnodup.idxOf_getElem k hk
    have hbits := hrows.bits source (hperm.mem_iff.mpr (List.mem_of_getElem? hsource)) target
      (List.mem_of_getElem? htarget)
    rw [hidx hsource, hidx htarget] at hbits
    unfold reachabilityRows
    rw [List.foldl_reverse]
    exact hbits
  · intro first id last heq s hleads
    obtain ⟨edge, hedge, rfl, rfl⟩ := hleads
    have hlt := hlast edge hedge
    have hmem : edge.target ∈ facts.topologicalOrder := hperm.mem_iff.mpr (hknown edge hedge).2
    have hdistinct := hperm.nodup_iff.mpr hnodup
    rw [heq] at hlt hmem hdistinct
    obtain ⟨-, hcons, hapart⟩ := List.nodup_append.mp hdistinct
    have hnot : edge.source ∉ first := fun hfirst => hapart _ hfirst _ List.mem_cons_self rfl
    rw [List.idxOf_append_of_notMem hnot, List.idxOf_cons_self] at hlt
    rcases List.mem_append.mp hmem with hmem | hmem
    · rw [List.idxOf_append_of_mem hmem] at hlt
      exact absurd (List.idxOf_lt_length_of_mem hmem) (by omega)
    · refine (List.mem_cons.mp hmem).resolve_left fun hself => ?_
      rw [hself, List.idxOf_append_of_notMem hnot, List.idxOf_cons_self] at hlt
      omega

/-- A task before the end. -/
def pairProgram : GvmProgram where
  taskTemplates := [⟨js "a", js "CALL"⟩, ⟨js "z", js "END"⟩]
  edges := [⟨js "a", js "z", false⟩]

theorem graphFacts_sound_pair : ∃ facts, graphFacts pairProgram = .ok facts ∧
    facts.topologicalOrder.idxOf (js "a") < facts.topologicalOrder.idxOf (js "z") := by
  have hok : (graphFacts pairProgram).toBool = true := by decide +kernel
  cases heq : graphFacts pairProgram with
  | error failure =>
      rw [heq] at hok
      cases hok
  | ok facts =>
      exact ⟨facts, rfl, (graphFacts_sound pairProgram facts heq).2.2 ⟨js "a", js "z", false⟩
        List.mem_cons_self⟩

end Sgos

end SingularityFlow
