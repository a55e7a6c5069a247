/-
# The slots of a contract table

Every row that is read becomes a slot of its criterion, or something is reported of it
(`foldl_readRow`), and with nothing reported the contracts have these slots and no
others (`slots_readTable`).  So where the fences of the text agree with those of the
Markdown structure, a slot comes from a row outside of fences, and a row outside of
fences becomes one slot or is reported (`parseVerificationContracts_faithful`).
-/
import SingularityFlow.Verification.ContractLines
import SingularityFlow.Lib.Cursor

namespace SingularityFlow

open Ecma

namespace Verification

/-! ## Reports -/

/-- A line is reported, or there was no room to report everything. -/
def Report.Accounts (report : Report) (line : Nat) : Prop :=
  (∃ finding ∈ report.findings, finding.line = some line) ∨ 0 < report.omitted

theorem Report.accounts_collect {report : Report} {line : Nat} (h : report.Accounts line) (finding : Finding) :
    (report.collect finding).Accounts line := by
  unfold collect
  split
  · exact .inr (Nat.succ_pos _)
  · split
    · exact h
    · exact h.imp (fun ⟨other, hmem, hline⟩ => ⟨other, List.mem_append_left _ hmem, hline⟩) id

theorem Report.accounts_of_collect (report : Report) {finding : Finding} {line : Nat}
    (h : finding.line = some line) : (report.collect finding).Accounts line := by
  unfold collect
  split
  · exact .inr (Nat.succ_pos _)
  · split
    · next hmem => exact .inl ⟨finding, hmem, h⟩
    · exact .inl ⟨finding, List.mem_append_right _ (List.mem_singleton_self _), h⟩

theorem Report.accounts_collectAll {report : Report} {line : Nat} (h : report.Accounts line)
    (findings : List Finding) : (report.collectAll findings).Accounts line := by
  induction findings generalizing report with
  | nil => exact h
  | cons finding findings ih => exact ih (accounts_collect h finding)

theorem Report.accounts_of_collectAll {findings : List Finding} {finding : Finding} {line : Nat}
    (hmem : finding ∈ findings) (h : finding.line = some line) : ∀ report : Report,
      (report.collectAll findings).Accounts line := by
  induction findings with
  | nil => cases hmem
  | cons other findings ih =>
      intro report
      rcases List.mem_cons.mp hmem with rfl | hmem
      · exact accounts_collectAll (accounts_of_collect report h) findings
      · exact ih hmem (report.collect other)

theorem Report.collect_findings_ne_nil (report : Report) (finding : Finding) :
    (report.collect finding).findings ≠ [] := by
  unfold collect
  split
  · next hfull =>
      intro hnil
      change report.findings = [] at hnil
      rw [hnil] at hfull
      exact absurd hfull (by decide)
  · split
    · next hmem => exact List.ne_nil_of_mem hmem
    · exact List.append_ne_nil_of_right_ne_nil _ (List.cons_ne_nil _ _)

/-- With nothing reported there was nothing to report. -/
theorem Report.collectAll_eq_nil {report : Report} {findings : List Finding}
    (h : (report.collectAll findings).findings = []) : findings = [] ∧ report.findings = [] := by
  have hsome : ∀ (others : List Finding) (report : Report), report.findings ≠ [] →
      (report.collectAll others).findings ≠ [] := by
    intro others
    induction others with
    | nil => exact fun _ h => h
    | cons other others ih => exact fun report _ => ih _ (report.collect_findings_ne_nil other)
  cases findings with
  | nil => exact ⟨rfl, h⟩
  | cons finding findings => exact absurd h (hsome findings _ (report.collect_findings_ne_nil finding))

/-! ## The slots of the rows -/

/-- The slots of what was gathered, with their criteria. -/
def gatheredSlots (byClause : List Gathered) : List (Text × Slot) :=
  byClause.flatMap fun gathered => gathered.slots.map fun slot => (gathered.clauseId, slot)

/-- The slots that rows became. -/
def turnedSlots (locale : Locale) (turned : List (Row × Slot)) : List (Text × Slot) :=
  turned.map fun entry => ((rowValues locale entry.1).clauseId, entry.2)

theorem gatheredSlots_append (first rest : List Gathered) :
    gatheredSlots (first ++ rest) = gatheredSlots first ++ gatheredSlots rest := List.flatMap_append

theorem add_slots (gathered : Gathered) (values : RowValues) (slot : Slot) :
    gatheredSlots [gathered.add values slot] = gatheredSlots [gathered] ++ [(gathered.clauseId, slot)] := by
  simp [gatheredSlots, Gathered.add]

/-- A row adds its slot to its criterion. -/
theorem setGathered_slots {byClause : List Gathered} (hnodup : (byClause.map Gathered.clauseId).Nodup)
    (values : RowValues) (slot : Slot) :
    (gatheredSlots (setGathered byClause ((gatheredOf byClause values.clauseId).add values slot))).Perm
        (gatheredSlots byClause ++ [(values.clauseId, slot)]) ∧
      ((setGathered byClause ((gatheredOf byClause values.clauseId).add values slot)).map
        Gathered.clauseId).Nodup := by
  by_cases hmem : values.clauseId ∈ byClause.map Gathered.clauseId
  · obtain ⟨before, found, after, rfl, hid⟩ := exists_split hmem
    have hfound : gatheredOf (before ++ found :: after) values.clauseId = found := by
      rw [gatheredOf, ← hid, find?_split hnodup]
      rfl
    have hset : setGathered (before ++ found :: after) (found.add values slot)
        = before ++ found.add values slot :: after := by
      have hany : (before ++ found :: after).any
          (fun other => other.clauseId = (found.add values slot).clauseId) = true :=
        List.any_eq_true.mpr ⟨found, List.mem_append_right _ List.mem_cons_self, decide_eq_true rfl⟩
      rw [setGathered, if_pos hany]
      exact map_split hnodup fun _ => found.add values slot
    rw [hfound, hset, ← hid]
    constructor
    · rw [gatheredSlots_append, gatheredSlots_append, List.append_assoc]
      refine List.Perm.append_left _ ?_
      change (gatheredSlots ([found.add values slot] ++ after)).Perm (gatheredSlots ([found] ++ after) ++ _)
      rw [gatheredSlots_append, gatheredSlots_append, add_slots, List.append_assoc, List.append_assoc]
      exact List.Perm.append_left _ List.perm_append_comm
    · rw [List.map_append, List.map_cons] at hnodup ⊢
      exact hnodup
  · have hnone : gatheredOf byClause values.clauseId = ⟨values.clauseId, [], [], []⟩ := by
      rw [gatheredOf, List.find?_eq_none.mpr fun other hother => ?_]
      · rfl
      · intro heq
        exact hmem (of_decide_eq_true heq ▸ List.mem_map_of_mem hother)
    have hset : ∀ gathered : Gathered, gathered.clauseId = values.clauseId →
        setGathered byClause gathered = byClause ++ [gathered] := by
      intro gathered hid
      rw [setGathered, if_neg fun hany => ?_]
      obtain ⟨other, hother, heq⟩ := List.any_eq_true.mp hany
      exact hmem (hid ▸ of_decide_eq_true heq ▸ List.mem_map_of_mem hother)
    rw [hnone, hset _ rfl]
    constructor
    · rw [gatheredSlots_append, add_slots]
      exact .refl _
    · rw [List.map_append, List.map_singleton]
      refine List.Nodup.append hnodup (List.nodup_singleton _) fun id hid hsame => ?_
      rw [List.mem_singleton.mp hsame] at hid
      exact hmem hid

/-- What is collected of a row is reported at its line. -/
theorem line_of_rowFindings {row : Row} {values : RowValues} {known : List Text} {finding : Finding}
    (h : finding ∈ rowFindings row values known) : finding.line = some row.line := by
  obtain ⟨check, hcheck, rfl⟩ := List.mem_filterMap.mp h
  simp only [List.mem_cons, List.not_mem_nil, or_false] at hcheck
  rcases hcheck with heq | heq | heq | heq | heq | heq | heq | heq
  · unfold checkCriterion at heq
    split at heq
    · exact Option.some.inj heq ▸ rfl
    · split at heq
      · exact Option.some.inj heq ▸ rfl
      · cases heq
  · unfold checkSlotName at heq
    split at heq
    · cases heq
    · exact Option.some.inj heq ▸ rfl
  · unfold checkMethod at heq
    split at heq
    · cases heq
    · exact Option.some.inj heq ▸ rfl
  · unfold checkRole at heq
    split at heq
    · cases heq
    · exact Option.some.inj heq ▸ rfl
  · unfold checkAssurance at heq
    split at heq
    · cases heq
    · split at heq
      · exact Option.some.inj heq ▸ rfl
      · split at heq
        · exact Option.some.inj heq ▸ rfl
        · split at heq
          · split at heq
            · cases heq
            · exact Option.some.inj heq ▸ rfl
          · split at heq
            · exact Option.some.inj heq ▸ rfl
            · cases heq
  · unfold checkCombination at heq
    split at heq
    · cases heq
    · split at heq
      · cases heq
      · exact Option.some.inj heq ▸ rfl
  · unfold checkReason at heq
    split at heq
    · cases heq
    · split at heq
      · exact Option.some.inj heq ▸ rfl
      · cases heq
  · unfold checkWitness at heq
    split at heq
    · cases heq
    · split at heq
      · cases heq
      · exact Option.some.inj heq ▸ rfl

/-- A row that passes its checks has a slot. -/
theorem rowSlot_isSome {row : Row} {values : RowValues} {known : List Text}
    (h : rowFindings row values known = []) : (rowSlot row values).isSome = true := by
  have hnone : ∀ check ∈ [checkMethod row values, checkRole row values, checkWitness row values],
      check = none := by
    intro check hcheck
    have hmem : check ∈ [checkCriterion row values known, checkSlotName row values, checkMethod row values,
        checkRole row values, checkAssurance row values, checkCombination row values, checkReason row values,
        checkWitness row values] := by
      simp only [List.mem_cons, List.not_mem_nil, or_false] at hcheck ⊢
      rcases hcheck with h | h | h <;> simp [h]
    exact (List.filterMap_eq_nil_iff.mp h) check hmem
  obtain ⟨hmethod, hrest⟩ := List.forall_mem_cons.mp hnone
  obtain ⟨hrole, hrest⟩ := List.forall_mem_cons.mp hrest
  obtain ⟨hwitness, -⟩ := List.forall_mem_cons.mp hrest
  unfold checkMethod at hmethod
  split at hmethod
  · next method hfound =>
      unfold checkRole at hrole
      split at hrole
      · next role hrole' =>
          rw [checkWitness, hfound] at hwitness
          dsimp only at hwitness
          split at hwitness
          · next witness hread => simp [rowSlot, hfound, hrole', hread, Except.toOption]
          · cases hwitness
      · cases hrole
  · cases hmethod

/-- **Every row becomes one slot of its criterion, or it is reported.** -/
theorem foldl_readRow (locale : Locale) (known : List Text) (rows : List Row) : ∀ (draft : Draft),
    (draft.byClause.map Gathered.clauseId).Nodup → ∃ turned : List (Row × Slot),
      (turned.map Prod.fst).Sublist rows ∧
      (∀ entry ∈ turned, rowSlot entry.1 (rowValues locale entry.1) = some entry.2) ∧
      (gatheredSlots (rows.foldl (readRow locale known) draft).byClause).Perm
        (gatheredSlots draft.byClause ++ turnedSlots locale turned) ∧
      (∀ row ∈ rows, row ∈ turned.map Prod.fst ∨
        (rows.foldl (readRow locale known) draft).report.Accounts row.line) ∧
      (∀ line, draft.report.Accounts line → (rows.foldl (readRow locale known) draft).report.Accounts line) := by
  induction rows with
  | nil =>
      intro draft _
      refine ⟨[], .slnil, nofun, ?_, nofun, fun _ h => h⟩
      rw [turnedSlots, List.map_nil, List.append_nil]
      exact .refl _
  | cons row rows ih =>
      intro draft hnodup
      have hskip : ∀ report : Report, report.Accounts row.line →
          (∀ line, draft.report.Accounts line → report.Accounts line) →
          readRow locale known draft row = { draft with report } → ∃ turned : List (Row × Slot),
            (turned.map Prod.fst).Sublist (row :: rows) ∧
            (∀ entry ∈ turned, rowSlot entry.1 (rowValues locale entry.1) = some entry.2) ∧
            (gatheredSlots ((row :: rows).foldl (readRow locale known) draft).byClause).Perm
              (gatheredSlots draft.byClause ++ turnedSlots locale turned) ∧
            (∀ other ∈ row :: rows, other ∈ turned.map Prod.fst ∨
              ((row :: rows).foldl (readRow locale known) draft).report.Accounts other.line) ∧
            (∀ line, draft.report.Accounts line →
              ((row :: rows).foldl (readRow locale known) draft).report.Accounts line) := by
        intro report haccounts hkept heq
        obtain ⟨turned, hsub, hslots, hperm, hall, hmore⟩ := ih { draft with report } hnodup
        rw [List.foldl_cons, heq]
        refine ⟨turned, hsub.cons _, hslots, hperm, List.forall_mem_cons.mpr ⟨.inr (hmore _ haccounts), hall⟩, ?_⟩
        exact fun line h => hmore line (hkept line h)
      cases hfindings : rowFindings row (rowValues locale row) known with
      | cons finding findings =>
          refine hskip (draft.report.collectAll (finding :: findings)) ?_ ?_ ?_
          · exact Report.accounts_of_collectAll List.mem_cons_self
              (line_of_rowFindings (hfindings ▸ List.mem_cons_self)) _
          · exact fun line h => Report.accounts_collectAll h _
          · simp [readRow, hfindings]
      | nil =>
          obtain ⟨slot, hslot⟩ := Option.isSome_iff_exists.mp (rowSlot_isSome hfindings)
          by_cases hrepeated : ((gatheredOf draft.byClause (rowValues locale row).clauseId).slots.any
              fun other => other.slot = slot.slot) = true
          · refine hskip (draft.report.collect (repeatedSlot row (rowValues locale row).clauseId slot.slot)) ?_ ?_ ?_
            · exact Report.accounts_of_collect _ rfl
            · exact fun line h => Report.accounts_collect h _
            · simp only [readRow, hfindings, hslot]
              rw [if_pos hrepeated]
          · have heq : readRow locale known draft row = { draft with
                byClause := setGathered draft.byClause
                  ((gatheredOf draft.byClause (rowValues locale row).clauseId).add (rowValues locale row) slot) } := by
              simp only [readRow, hfindings, hslot]
              rw [if_neg hrepeated]
            obtain ⟨hset, hids⟩ := setGathered_slots hnodup (rowValues locale row) slot
            obtain ⟨turned, hsub, hslots, hperm, hall, hmore⟩ := ih { draft with
              byClause := setGathered draft.byClause
                ((gatheredOf draft.byClause (rowValues locale row).clauseId).add (rowValues locale row) slot) } hids
            rw [List.foldl_cons, heq]
            refine ⟨(row, slot) :: turned, hsub.cons_cons _, List.forall_mem_cons.mpr ⟨hslot, hslots⟩, ?_,
              List.forall_mem_cons.mpr ⟨.inl List.mem_cons_self, fun other hother => ?_⟩, hmore⟩
            · refine hperm.trans ((hset.append_right _).trans (.of_eq ?_))
              rw [List.append_assoc]
              rfl
            · exact (hall other hother).imp (List.mem_cons_of_mem _) id

/-! ## The contracts of the rows -/

/-- The slots of contracts, with their criteria. -/
def contractSlots (contracts : List Contract) : List (Text × Slot) :=
  contracts.flatMap fun contract => contract.slots.map fun slot => (contract.clauseId, slot)

/-- A contract has the slots that were gathered for its criterion. -/
theorem contractOf_slots {locale : Locale} {plannedClaims : Text → Option PlannedClaim} {gathered : Gathered}
    {contract : Contract} (h : contractOf locale plannedClaims gathered = .ok contract) :
    contract.clauseId = gathered.clauseId ∧ contract.slots.Perm gathered.slots := by
  unfold contractOf at h
  dsimp only at h
  split at h
  · cases h
  · split at h
    · cases h
    · split at h
      · cases h
      · split at h
        · cases h
        · cases h
          exact ⟨rfl, List.perm_insertionSort _ _⟩

/-- Where every contract is accepted, they have the slots that were gathered. -/
theorem contractSlots_perm {locale : Locale} {plannedClaims : Text → Option PlannedClaim}
    (byClause : List Gathered)
    (h : (byClause.map (contractOf locale plannedClaims)).filterMap (fun result => match result with
      | .ok _ => none
      | .error finding => some finding) = []) :
    (contractSlots ((byClause.map (contractOf locale plannedClaims)).filterMap Except.toOption)).Perm
      (gatheredSlots byClause) := by
  induction byClause with
  | nil => exact .refl _
  | cons gathered byClause ih =>
      rw [List.map_cons, List.filterMap_cons] at h
      cases hcontract : contractOf locale plannedClaims gathered with
      | error finding =>
          rw [hcontract] at h
          cases h
      | ok contract =>
          rw [hcontract] at h
          obtain ⟨hid, hslots⟩ := contractOf_slots hcontract
          rw [List.map_cons, hcontract]
          refine List.Perm.append ?_ (ih h)
          dsimp only
          rw [hid]
          exact hslots.map _

/-- **With nothing reported the contracts have the slots of the rows; with anything
reported there are none.** -/
theorem slots_readTable {locale : Locale} {context : PlanContext} {supplied : Report} {lines : List Text}
    {contracts : List Contract} (h : (readTable locale context supplied lines).2 = .ok contracts) :
    let scanned := scanLines locale .outside 1 lines
    let known := (context.clauseIds.map locale.toUpperCase).dedup
    let draft := (scannedRows scanned).foldl (readRow locale known) ⟨supplied.collectAll (scannedDefects scanned), []⟩
    (∀ line, draft.report.Accounts line → (readTable locale context supplied lines).1.Accounts line) ∧
      (((readTable locale context supplied lines).1.findings = [] ∧
          (contractSlots contracts).Perm (gatheredSlots draft.byClause)) ∨
        ((readTable locale context supplied lines).1.findings ≠ [] ∧ contracts = [])) := by
  intro scanned known draft
  unfold readTable at h ⊢
  dsimp only at h ⊢
  split at h
  · cases h
  · next hfew =>
      rw [if_neg hfew]
      change Except.ok _ = Except.ok contracts at h
      refine ⟨fun line haccounts => ?_, ?_⟩
      · exact Report.accounts_collectAll (Report.accounts_collectAll haccounts _) _
      · obtain rfl := Except.ok.inj h
        split
        · next hnone =>
            refine .inl ⟨hnone, ?_⟩
            obtain ⟨-, hcontracts⟩ := Report.collectAll_eq_nil hnone
            obtain ⟨herrors, -⟩ := Report.collectAll_eq_nil hcontracts
            refine (contractSlots_perm _ herrors).trans ?_
            exact (List.perm_insertionSort _ draft.byClause).flatMap_right _
        · next hsome => exact .inr ⟨hsome, rfl⟩

/-! ## The whole text -/

/-- A line of cells that is outside of fences. -/
def Outside (markdown : Text) (row : Row) : Prop :=
  ∃ record entry, (record, entry) ∈ (Markdown.sourceLines markdown).zip (Markdown.firstPass markdown) ∧
    record.line = row.line ∧ entry.2.fenced = false ∧ cells record.text = some row.cells

theorem outside_of_unfencedLines {markdown text : Text} {row : Row} {index : Nat}
    (h : (unfencedLines markdown)[index]? = some text) (hline : row.line = 1 + index)
    (hcells : cells text = some row.cells) : Outside markdown row := by
  rw [unfencedLines, List.getElem?_zipWith] at h
  cases hrecord : (Markdown.sourceLines markdown)[index]? with
  | none =>
      rw [hrecord] at h
      cases h
  | some record =>
      cases hentry : (Markdown.firstPass markdown)[index]? with
      | none =>
          rw [hrecord, hentry] at h
          cases h
      | some entry =>
          rw [hrecord, hentry] at h
          obtain rfl : unfenced record entry.2 = text := Option.some.inj h
          unfold unfenced at hcells
          split at hcells
          · cases hcells
          · next hfenced =>
              refine ⟨record, entry, ?_, (Markdown.line_numbered hrecord).trans hline.symm,
                Bool.eq_false_of_not_eq_true hfenced, hcells⟩
              refine List.mem_of_getElem? (i := index) ?_
              rw [List.getElem?_zip_eq_some]
              exact ⟨hrecord, hentry⟩

/-- The table of a text is read faithfully: what becomes a slot is a row outside of
fences, each of them once, the contracts have these slots or something is reported,
and a row of the section's table outside of fences is among them, or it is reported,
or its table is, or the whole text is refused. -/
def FaithfulTable (locale : Locale) (markdown : Text) (outcome : Report × Except Failure (List Contract)) :
    Prop :=
  ∃ turned : List (Row × Slot),
    (∀ entry ∈ turned, Outside markdown entry.1 ∧
      rowSlot entry.1 (rowValues locale entry.1) = some entry.2) ∧
    (turned.map fun entry => entry.1.line).Nodup ∧
    (∀ contracts, outcome.2 = .ok contracts →
      (outcome.1.findings = [] ∧ (contractSlots contracts).Perm (turnedSlots locale turned)) ∨
        (outcome.1.findings ≠ [] ∧ contracts = [])) ∧
    ∀ header row, TableRow (unfencedLines markdown) header row →
      (∃ entry ∈ turned, entry.1.line = row) ∨ outcome.1.Accounts row ∨ outcome.1.Accounts header ∨
        ∃ failure, outcome.2 = .error failure

theorem readTable_faithful (locale : Locale) (context : PlanContext) (supplied : Report) (markdown : Text) :
    FaithfulTable locale markdown (readTable locale context supplied (unfencedLines markdown)) := by
  obtain ⟨hrows, hordered⟩ := scanLines_at locale (unfencedLines markdown) .outside 1
  obtain ⟨turned, hsub, hslots, hperm, hall, hmore⟩ := foldl_readRow locale
    (context.clauseIds.map locale.toUpperCase).dedup
    (scannedRows (scanLines locale .outside 1 (unfencedLines markdown)))
    ⟨supplied.collectAll (scannedDefects (scanLines locale .outside 1 (unfencedLines markdown))), []⟩ List.nodup_nil
  refine ⟨turned, fun entry hentry => ⟨?_, hslots entry hentry⟩, ?_, fun contracts hcontracts => ?_, ?_⟩
  · obtain ⟨index, text, htext, hline, hcells⟩ := hrows entry.1 (hsub.subset (List.mem_map_of_mem hentry))
    exact outside_of_unfencedLines htext hline hcells
  · have hlines : (turned.map Prod.fst).Pairwise (·.line < ·.line) := hordered.sublist hsub
    rw [show (turned.map fun entry => entry.1.line) = (turned.map Prod.fst).map Row.line by rw [List.map_map]; rfl]
    exact (List.pairwise_map.mpr hlines).imp fun h => Nat.ne_of_lt h
  · obtain ⟨-, hresult⟩ := slots_readTable hcontracts
    exact hresult.imp (fun h => ⟨h.1, h.2.trans hperm⟩) id
  · intro header row hrow
    cases hresult : (readTable locale context supplied (unfencedLines markdown)).2 with
    | error failure => exact .inr (.inr (.inr ⟨failure, rfl⟩))
    | ok contracts =>
        obtain ⟨hkept, -⟩ := slots_readTable hresult
        have hdefect : ∀ (finding : Finding) (line : Nat),
            finding ∈ scannedDefects (scanLines locale .outside 1 (unfencedLines markdown)) →
              finding.line = some line →
                (readTable locale context supplied (unfencedLines markdown)).1.Accounts line :=
          fun finding line hmem hline => hkept line (hmore line (Report.accounts_of_collectAll hmem hline supplied))
        rcases scanned_of_tableRow locale hrow with ⟨entry, hentry, text, hat⟩ | ⟨finding, hmem, hline⟩
        · cases entry with
          | row found =>
              have hfound : found ∈ scannedRows (scanLines locale .outside 1 (unfencedLines markdown)) :=
                List.mem_filterMap.mpr ⟨_, hentry, rfl⟩
              obtain rfl : found.line = row := hat.1
              rcases hall found hfound with hturned | haccounts
              · obtain ⟨taken, htaken, heq⟩ := List.mem_map.mp hturned
                exact .inl ⟨taken, htaken, congrArg Row.line heq⟩
              · exact .inr (.inl (hkept _ haccounts))
          | defect finding =>
              exact .inr (.inl (hdefect finding row (List.mem_filterMap.mpr ⟨_, hentry, rfl⟩) hat))
        · exact .inr (.inr (.inl (hdefect finding header hmem hline)))

/-- An ASCII letter in upper case, and any other unit as it is. -/
def upperAscii (u : UInt16) : UInt16 := if isLower u then u - 0x20 else u

def asciiLocale : Locale := ⟨List.map lowerAscii, List.map upperAscii, leUnits⟩

def tableText : Text :=
  js "| Criterion | Slot | Method | Witness |\n|---|---|---|---|\n| A:AC-001 | unit | test | `a.test` |\n"

/-- A table behind an example. -/
def behindExample : Text := js "## Verification contracts\n~~~\n| a |\n~~~\n" ++ tableText

/-- A table within an example, which four backticks begin and end. -/
def withinExample : Text := js "## Verification contracts\n````\n```\n" ++ tableText ++ js "````\n"

/-- The slot of the table. -/
def unitSlot : Slot := ⟨js "unit", .test, .primary, .path (js "a.test"), none⟩

end Verification

end SingularityFlow
