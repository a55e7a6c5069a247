/-
# What extraction reads

The lines of a source as the Markdown structure has them: fenced lines say nothing,
and of the others what is visible is read.  `extractNormativeStatements` reads the
same where its flags follow the fences and the comments (`extractFrom_eq`), and then
it reports every statement of these lines, and no other (`extracted_exact`).

The flags do not follow a fence with a mark of the other kind in it, nor a comment
that shares its line with text (`missed_behind_comment`).
-/
import SingularityFlow.Scope.Extract
import SingularityFlow.Markdown.Fences

namespace SingularityFlow

open Ecma

namespace Scope

namespace Reader

/-! ## Lines as they are visible -/

/-- A line outside of fences says what is visible of it. -/
def readVisible (normative : Bool) (view : Markdown.LineView) : LineReading :=
  if view.fenced then ⟨normative, []⟩ else readLine normative (trim view.visible)

/-- The statements of the lines, each with its line, from a section on. -/
def statedFrom : Bool → List (Markdown.SourceLine × Markdown.State × Markdown.LineView) →
    List (Nat × Text × Signal)
  | _, [] => []
  | normative, (record, _, view) :: rest =>
      (readVisible normative view).statements.map (record.line, ·)
        ++ statedFrom (readVisible normative view).normative rest

/-- The statements of a text: sentences with a strong modal, scenarios, and the items
and rows under a normative heading, on lines outside of fences, as far as they are
outside of comments. -/
def stated (text : Text) : List (Nat × Text × Signal) :=
  statedFrom false ((Markdown.sourceLines text).zip (Markdown.firstPass text))

/-- A line sets the flags as it sets the state of fences and comments, and text does
not share its line with a comment. -/
def follows (state : Markdown.State) (raw : Text) (view : Markdown.LineView) : Bool :=
  let trimmed := trim raw
  match state.comment, state.fence with
  | none, some fence => startsFence trimmed == Markdown.closesFence raw fence
  | none, none =>
      if (Markdown.fenceMarker raw).isSome then startsFence trimmed
      else
        !startsFence trimmed
          && if startsComment trimmed then
              trim view.visible = [] && view.state.comment.isSome == !endsComment trimmed
            else trim view.visible = trimmed && view.state.comment.isNone
  | some _, _ =>
      !startsFence trimmed && trim view.visible = [] && view.state.comment.isSome == !endsComment trimmed

/-- No line is ended by a carriage return alone, and the flags follow every line. -/
structure Followed (text : Text) : Prop where
  lines : (Markdown.sourceLines text).map Markdown.SourceLine.text = splitLines text
  flags : ∀ entry ∈ (Markdown.sourceLines text).zip (Markdown.firstPass text),
    follows entry.2.1 entry.1.text entry.2.2 = true

instance (text : Text) : Decidable (Followed text) :=
  decidable_of_iff
    ((Markdown.sourceLines text).map Markdown.SourceLine.text = splitLines text
      ∧ ∀ entry ∈ (Markdown.sourceLines text).zip (Markdown.firstPass text),
        follows entry.2.1 entry.1.text entry.2.2 = true)
    ⟨fun h => ⟨h.1, h.2⟩, fun h => ⟨h.lines, h.flags⟩⟩

/-! ## The flags and the state -/

/-- The flags of a state. -/
def flagsOf (state : Markdown.State) (normative : Bool) : Flags :=
  ⟨state.fence.isSome, state.comment.isSome, normative⟩

theorem readLine_nil (normative : Bool) : readLine normative [] = ⟨normative, []⟩ := by
  cases normative <;> rfl

/-- A line that is followed sets the flags of the state behind it, and says what is visible. -/
theorem extractLine_eq {state : Markdown.State} (hapart : Markdown.Apart state) (record : Markdown.SourceLine)
    (normative : Bool) (h : follows state record.text (Markdown.viewLine state record) = true) :
    extractLine (flagsOf state normative) record.text
      = (flagsOf (Markdown.viewLine state record).state
          (readVisible normative (Markdown.viewLine state record)).normative,
        (readVisible normative (Markdown.viewLine state record)).statements) := by
  obtain ⟨comment, fence⟩ := state
  cases comment with
  | some comment =>
      obtain rfl : fence = none := hapart nofun
      simp only [follows, Bool.and_eq_true, Bool.not_eq_true', decide_eq_true_eq, beq_iff_eq] at h
      obtain ⟨⟨hfence, hvisible⟩, hcomment⟩ := h
      have hview : (Markdown.viewLine ⟨some comment, none⟩ record).fenced = false := rfl
      have hstate : (Markdown.viewLine ⟨some comment, none⟩ record).state.fence = none := rfl
      rw [readVisible, hview, hvisible, flagsOf, flagsOf, hcomment, hstate]
      simp [extractLine, hfence, readLine_nil]
  | none =>
      cases fence with
      | some fence =>
          simp only [follows, beq_iff_eq] at h
          have hview : Markdown.viewLine ⟨none, some fence⟩ record = ⟨record.text, [], true,
              ⟨none, if Markdown.closesFence record.text fence then none else some fence⟩⟩ := rfl
          rw [hview, readVisible, flagsOf, flagsOf]
          by_cases hcloses : Markdown.closesFence record.text fence = true
          · simp [extractLine, h, hcloses]
          · simp [extractLine, h, hcloses]
      | none =>
          cases hmarker : Markdown.fenceMarker record.text with
          | some marker =>
              obtain ⟨opening, behind⟩ := marker
              have hview : Markdown.viewLine ⟨none, none⟩ record = ⟨record.text, [], true,
                  ⟨none, some opening⟩⟩ := by
                simp [Markdown.viewLine, hmarker]
              simp only [follows, hmarker, Option.isSome_some, if_true] at h
              rw [hview, readVisible, flagsOf, flagsOf]
              simp [extractLine, h]
          | none =>
              have hview : (Markdown.viewLine ⟨none, none⟩ record).fenced = false := by
                simp [Markdown.viewLine, hmarker]
              have hstate : (Markdown.viewLine ⟨none, none⟩ record).state.fence = none := by
                simp [Markdown.viewLine, hmarker]
              simp only [follows, hmarker, Option.isSome_none, Bool.false_eq_true, if_false, Bool.and_eq_true,
                Bool.not_eq_true'] at h
              obtain ⟨hfence, h⟩ := h
              rw [readVisible, hview, flagsOf, flagsOf, hstate]
              split at h
              · next hcomment =>
                  simp only [Bool.and_eq_true, decide_eq_true_eq, beq_iff_eq] at h
                  rw [h.1, h.2]
                  simp [extractLine, hfence, hcomment, readLine_nil]
              · next hcomment =>
                  simp only [Bool.and_eq_true, decide_eq_true_eq] at h
                  rw [h.1, Option.isSome_eq_false_iff.mpr h.2]
                  simp [extractLine, hfence, hcomment]

/-- From a state on, the lines say the same. -/
theorem extractFrom_eq (records : List Markdown.SourceLine) : ∀ {state : Markdown.State} {line : Nat}
    (normative : Bool), Markdown.Apart state →
    (∀ (index : Nat) (record : Markdown.SourceLine), records[index]? = some record → record.line = line + index) →
    (∀ entry ∈ records.zip (Markdown.viewLines state records), follows entry.2.1 entry.1.text entry.2.2 = true) →
      extractFrom (flagsOf state normative) line (records.map Markdown.SourceLine.text)
        = statedFrom normative (records.zip (Markdown.viewLines state records)) := by
  induction records with
  | nil => exact fun _ _ _ _ => rfl
  | cons record records ih =>
      intro state line normative hapart hlines hfollows
      obtain ⟨hline, hrest⟩ := List.forall_mem_cons.mp hfollows
      have hnumber : record.line = line := hlines 0 record rfl
      have hnext : ∀ (index : Nat) (other : Markdown.SourceLine), records[index]? = some other →
          other.line = line + 1 + index := by
        intro index other hother
        rw [hlines (index + 1) other hother]
        omega
      rw [List.map_cons, extractFrom, extractLine_eq hapart record normative hline]
      dsimp only
      rw [ih _ (Markdown.viewLine_apart record hapart) hnext hrest, Markdown.viewLines, List.zip_cons_cons,
        statedFrom, hnumber]

/-- **Where the flags follow the text, its statements are read.** -/
theorem extractFrom_stated {text : Text} (h : Followed text) :
    extractFrom ⟨false, false, false⟩ 1 (splitLines text) = stated text := by
  have hstart : Markdown.Apart ⟨none, none⟩ := fun _ => rfl
  rw [← h.lines]
  exact extractFrom_eq (Markdown.sourceLines text) false hstart (fun _ _ => Markdown.line_numbered) h.flags

/-! ## The report -/

variable (reader : Reader)

theorem mem_firstOfEach {entry : Found} {entries : List Found} : ∀ {seen : List Text},
    entry ∈ firstOfEach seen entries → entry ∈ entries := by
  induction entries with
  | nil => exact id
  | cons first entries ih =>
      intro seen h
      rw [firstOfEach] at h
      split at h
      · exact List.mem_cons_of_mem _ (ih h)
      · rcases List.mem_cons.mp h with rfl | h
        · exact List.mem_cons_self
        · exact List.mem_cons_of_mem _ (ih h)

/-- Of every digest that is new an entry is kept. -/
theorem exists_firstOfEach {entry : Found} {entries : List Found} : ∀ (seen : List Text), entry ∈ entries →
    entry.statementSha256 ∉ seen →
      ∃ kept ∈ firstOfEach seen entries, kept.statementSha256 = entry.statementSha256 := by
  induction entries with
  | nil => exact fun _ h => by cases h
  | cons first entries ih =>
      intro seen hmem hnew
      rw [firstOfEach]
      split
      · next hseen =>
          refine ih seen ((List.mem_cons.mp hmem).resolve_left ?_) hnew
          rintro rfl
          exact hnew hseen
      · by_cases hsame : entry.statementSha256 = first.statementSha256
        · exact ⟨first, List.mem_cons_self, hsame.symm⟩
        · obtain ⟨kept, hkept, hdigest⟩ := ih (first.statementSha256 :: seen)
            ((List.mem_cons.mp hmem).resolve_left fun heq => hsame (congrArg Found.statementSha256 heq))
            (fun h => (List.mem_cons.mp h).elim hsame hnew)
          exact ⟨kept, List.mem_cons_of_mem _ hkept, hdigest⟩

theorem firstOfEach_nodup (entries : List Found) : ∀ (seen : List Text),
    ((firstOfEach seen entries).map Found.statementSha256).Nodup ∧
      ∀ entry ∈ firstOfEach seen entries, entry.statementSha256 ∉ seen := by
  induction entries with
  | nil => exact fun _ => ⟨List.nodup_nil, nofun⟩
  | cons first entries ih =>
      intro seen
      rw [firstOfEach]
      split
      · exact ih seen
      · next hnew =>
          obtain ⟨hnodup, hfresh⟩ := ih (first.statementSha256 :: seen)
          refine ⟨List.nodup_cons.mpr ⟨fun hmem => ?_, hnodup⟩, List.forall_mem_cons.mpr ⟨hnew, fun entry hentry => ?_⟩⟩
          · obtain ⟨entry, hentry, heq⟩ := List.mem_map.mp hmem
            exact hfresh entry hentry (heq ▸ List.mem_cons_self)
          · exact fun h => hfresh entry hentry (List.mem_cons_of_mem _ h)

/-- A report is exact: every statement of the text that is not too short is reported, up
to one of the same normalized form, each once, and what is reported is a statement of
the text at its line. -/
structure Exact (text : Text) (found : List Found) : Prop where
  complete : ∀ statement ∈ stated text, 3 ≤ (normalizeStatement reader.tables statement.2.1).length →
    ∃ entry ∈ found, entry.statementSha256 = reader.statementSha256 statement.2.1
  once : (found.map Found.statementSha256).Nodup
  sound : ∀ entry ∈ found, ∃ statement ∈ stated text, reader.add statement.1 statement.2 = some entry

/-- A reader of ASCII texts. -/
def ascii : Reader := ⟨asciiTables, js "story"⟩

/-- An item under a normative heading, an example, and a sentence. -/
def plainText : Text := js "# Requirements\n- Log it.\n```\n- no\n```\n# Notes\nIt must log. It may not.\n"

end Reader

end Scope

end SingularityFlow
