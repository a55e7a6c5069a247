/-
# The lines of a contract table

Which lines `parseVerificationContracts` sees, against the fences of the Markdown
structure, and what it makes of them.  Where every line opens or closes a fence for
both or for neither, the two see the same lines (`visibleLines_eq`).  Of the lines
that are seen, each row of a section's table is read as a row or reported
(`scanned_of_tableRow`), and a row that is read is a line of cells
(`line_of_scannedRow`).
-/
import SingularityFlow.Verification.ContractTable
import SingularityFlow.Markdown.Fences

namespace SingularityFlow

open Ecma

namespace Verification

/-! ## Fences -/

/-- A line as far as it is outside of fences. -/
def unfenced (record : Markdown.SourceLine) (view : Markdown.LineView) : Text :=
  if view.fenced then [] else record.text

/-- The lines of a text that the Markdown structure has outside of fences. -/
def unfencedLines (markdown : Text) : List Text :=
  List.zipWith (fun record entry => unfenced record entry.2) (Markdown.sourceLines markdown)
    (Markdown.firstPass markdown)

/-- The mark of a line opens or closes a fence exactly where the line does. -/
def agrees (state : Markdown.State) (line : Text) : Bool :=
  match state.comment, state.fence with
  | none, some fence => decide (fenceMark line = some fence.character) == Markdown.closesFence line fence
  | none, none => (fenceMark line).isSome == (Markdown.fenceMarker line).isSome
  | some _, _ => (fenceMark line).isNone

/-- No line is ended by a carriage return alone, and each opens or closes a fence by
its mark exactly where it does in the Markdown structure. -/
structure Agreeing (markdown : Text) : Prop where
  lines : (Markdown.sourceLines markdown).map Markdown.SourceLine.text = splitLines markdown
  fences : ∀ entry ∈ (Markdown.sourceLines markdown).zip (Markdown.firstPass markdown),
    agrees entry.2.1 entry.1.text = true

instance (markdown : Text) : Decidable (Agreeing markdown) :=
  decidable_of_iff
    ((Markdown.sourceLines markdown).map Markdown.SourceLine.text = splitLines markdown
      ∧ ∀ entry ∈ (Markdown.sourceLines markdown).zip (Markdown.firstPass markdown),
        agrees entry.2.1 entry.1.text = true)
    ⟨fun h => ⟨h.1, h.2⟩, fun h => ⟨h.lines, h.fences⟩⟩

theorem dropWhile_of_dropWhile {p q : UInt16 → Bool} (hpq : ∀ u, p u = true → q u = true) {line rest : Text}
    {u : UInt16} (h : line.dropWhile p = u :: rest) (hu : q u = false) : line.dropWhile q = u :: rest := by
  induction line with
  | nil => cases h
  | cons v line ih =>
      rw [List.dropWhile_cons] at h ⊢
      split at h
      · next hv => rw [if_pos (hpq v hv), ih h]
      · cases h
        rw [if_neg (Bool.not_eq_true _ ▸ hu)]

/-- The marker of a fence is one for its mark. -/
theorem fenceMark_of_fenceMarker {line behind : Text} {fence : Markdown.Fence}
    (h : Markdown.fenceMarker line = some (fence, behind)) : fenceMark line = some fence.character := by
  unfold Markdown.fenceMarker at h
  split at h
  · cases h
  · split at h
    · cases h
    · next u rest hline =>
        dsimp only at h
        split at h
        · next hmark =>
            cases h
            simp only [Bool.and_eq_true, Bool.or_eq_true, decide_eq_true_eq] at hmark
            obtain ⟨⟨hmark, hlength⟩, -⟩ := hmark
            have hu : isTrimmed u = false := by rcases hmark with rfl | rfl <;> decide
            have hblank : ∀ v : UInt16, decide (v = 0x20) = true → isTrimmed v = true := by
              intro v hv
              obtain rfl := of_decide_eq_true hv
              decide
            rw [fenceMark, dropWhile_of_dropWhile hblank hline hu]
            dsimp only
            rw [if_pos]
            simp only [Bool.and_eq_true, Bool.or_eq_true, decide_eq_true_eq]
            exact ⟨hmark, hlength⟩
        · cases h

/-- From a state on, the two see the same lines. -/
theorem visibleFrom_eq (records : List Markdown.SourceLine) : ∀ {state : Markdown.State}, Markdown.Apart state →
    (∀ entry ∈ records.zip (Markdown.viewLines state records), agrees entry.2.1 entry.1.text = true) →
      visibleFrom (state.fence.map Markdown.Fence.character) (records.map Markdown.SourceLine.text)
        = List.zipWith (fun record entry => unfenced record entry.2) records
          (Markdown.viewLines state records) := by
  induction records with
  | nil => exact fun _ _ => rfl
  | cons record records ih =>
      intro state hapart hagree
      obtain ⟨hline, hrest⟩ := List.forall_mem_cons.mp hagree
      have hnext := ih (Markdown.viewLine_apart record hapart) hrest
      have hstep : visibleLine (state.fence.map Markdown.Fence.character) record.text
          = ((Markdown.viewLine state record).state.fence.map Markdown.Fence.character,
            unfenced record (Markdown.viewLine state record)) := by
        obtain ⟨comment, fence⟩ := state
        cases comment with
        | some comment =>
            obtain rfl : fence = none := hapart nofun
            have hmark : fenceMark record.text = none := Option.isNone_iff_eq_none.mp hline
            simp [visibleLine, Markdown.viewLine, unfenced, hmark]
        | none =>
            cases fence with
            | some fence =>
                have hcloses : decide (fenceMark record.text = some fence.character)
                    = Markdown.closesFence record.text fence := beq_iff_eq.mp hline
                cases hmark : fenceMark record.text with
                | none =>
                    rw [hmark] at hcloses
                    simp [visibleLine, Markdown.viewLine, unfenced, hmark, ← hcloses]
                | some mark =>
                    rw [hmark] at hcloses
                    by_cases heq : mark = fence.character
                    · simp [visibleLine, Markdown.viewLine, unfenced, hmark, ← hcloses, heq]
                    · simp [visibleLine, Markdown.viewLine, unfenced, hmark, ← hcloses, heq]
            | none =>
                have hopens : (fenceMark record.text).isSome = (Markdown.fenceMarker record.text).isSome :=
                  beq_iff_eq.mp hline
                cases hmarker : Markdown.fenceMarker record.text with
                | none =>
                    rw [hmarker, Option.isSome_none, Option.isSome_eq_false_iff, Option.isNone_iff_eq_none] at hopens
                    simp [visibleLine, Markdown.viewLine, unfenced, hopens, hmarker]
                | some marker =>
                    obtain ⟨opening, behind⟩ := marker
                    simp [visibleLine, Markdown.viewLine, unfenced, hmarker, fenceMark_of_fenceMarker hmarker]
      rw [List.map_cons, visibleFrom, hstep, Markdown.viewLines, List.zipWith_cons_cons]
      exact congrArg _ hnext

/-- **Where the fences agree, the lines that are seen are those outside of fences.** -/
theorem visibleLines_eq {markdown : Text} (h : Agreeing markdown) :
    visibleLines markdown = unfencedLines markdown := by
  have hstart : Markdown.Apart ⟨none, none⟩ := fun _ => rfl
  rw [visibleLines, ← h.lines]
  exact visibleFrom_eq (Markdown.sourceLines markdown) hstart h.fences

/-! ## The lines of a table -/

section Scan

variable {locale : Locale}

/-- What is read at a line. -/
def Scanned.At (line : Nat) (text : Text) : Scanned → Prop
  | .row found => found.line = line ∧ cells text = some found.cells
  | .defect finding => finding.line = some line

/-- A divider is expected only where one stands. -/
def Place.Met (place : Place) (lines : List Text) : Prop :=
  ∀ names, place = .divider names → isDivider names (lines.headD []) = true

theorem placeAt_met (inside : Bool) (text : Text) (lines : List Text) : (placeAt inside text).Met lines := by
  unfold placeAt
  split
  · split <;> exact nofun
  · split <;> exact nofun

/-- One line is read, and the others from another place on. -/
theorem scanLines_step (locale : Locale) (place : Place) (line : Nat) (text : Text) (rest : List Text) :
    ∃ (here : Option Scanned) (next : Place), scanLines locale place line (text :: rest)
        = here.toList ++ scanLines locale next (line + 1) rest ∧
      (∀ entry ∈ here, entry.At line text) ∧ next.Met rest := by
  have hdefect : ∀ message field, (tableDefect message line field).At line text := fun _ _ => rfl
  cases place with
  | outside =>
      exact ⟨none, placeAt false text, by rw [scanLines]; rfl, nofun, placeAt_met _ _ _⟩
  | divider names => exact ⟨none, .rows names, by rw [scanLines]; rfl, nofun, nofun⟩
  | rows names =>
      rw [scanLines]
      split
      · exact ⟨none, placeAt false text, rfl, nofun, placeAt_met _ _ _⟩
      · next found hfound =>
          refine ⟨some _, .rows names, rfl, ?_, nofun⟩
          rintro entry ⟨⟩
          split
          · exact ⟨rfl, hfound⟩
          · exact hdefect _ _
  | inside =>
      rw [scanLines]
      split
      · exact ⟨none, placeAt true text, rfl, nofun, placeAt_met _ _ _⟩
      · exact ⟨none, placeAt true text, rfl, nofun, placeAt_met _ _ _⟩
      · next header _ _ =>
          dsimp only
          split
          · exact ⟨some _, .outside, rfl, by rintro entry ⟨⟩; exact hdefect _ _, nofun⟩
          · split
            · exact ⟨some _, .outside, rfl, by rintro entry ⟨⟩; exact hdefect _ _, nofun⟩
            · next hdivider =>
                refine ⟨none, .divider (headerNames locale header), rfl, nofun, ?_⟩
                rintro names ⟨⟩
                exact Bool.eq_true_of_not_eq_false hdivider

/-- Lines are read up to a line, from a place where a divider is expected only where
one stands. -/
theorem scanLines_front (locale : Locale) (rest : List Text) : ∀ (front : List Text) (place : Place) (line : Nat),
    place.Met (front ++ rest) → ∃ (found : List Scanned) (next : Place),
      scanLines locale place line (front ++ rest) = found ++ scanLines locale next (line + front.length) rest ∧
      next.Met rest := by
  intro front
  induction front with
  | nil => exact fun place line hmet => ⟨[], place, rfl, hmet⟩
  | cons text front ih =>
      intro place line _
      obtain ⟨here, next, hstep, -, hmet⟩ := scanLines_step locale place line text (front ++ rest)
      obtain ⟨found, last, hfound, hlast⟩ := ih next (line + 1) hmet
      refine ⟨here.toList ++ found, last, ?_, hlast⟩
      rw [List.cons_append, hstep, hfound, List.append_assoc, List.length_cons, Nat.add_assoc line 1,
        Nat.add_comm 1]

/-- A heading has no cells. -/
theorem cells_of_sectionTitle {text title : Text} (h : sectionTitle text = some title) : cells text = none := by
  unfold sectionTitle at h
  dsimp only at h
  split at h
  · next hmarks =>
      cases text with
      | nil => exact absurd hmarks.1 (by decide)
      | cons u text =>
          have hu : u = 0x23 := by
            by_contra hne
            rw [List.takeWhile_cons_of_neg (by simpa using hne)] at hmarks
            exact absurd hmarks.1 (by decide)
          subst hu
          have hhead : (trim (0x23 :: text)).head? = some 0x23 := by
            obtain ⟨trimmed, htrimmed⟩ := trim_cons (show isTrimmed 0x23 = false by decide) text
            rw [htrimmed]
            rfl
          unfold cells
          dsimp only
          rw [if_neg fun h => ?_]
          rw [hhead] at h
          exact absurd h.1 (by decide)
  · cases h

/-- A heading with the title of the section begins it. -/
theorem scanLines_heading {place : Place} {line : Nat} {heading title : Text} {rest : List Text}
    (hmet : place.Met (heading :: rest)) (htitle : sectionTitle heading = some title)
    (hsection : namesSection title = true) :
    scanLines locale place line (heading :: rest) = scanLines locale .inside (line + 1) rest := by
  have hplace : ∀ inside, placeAt inside heading = .inside := by
    intro inside
    rw [placeAt, htitle]
    exact if_pos hsection
  have hcells := cells_of_sectionTitle htitle
  cases place with
  | outside => rw [scanLines, hplace]
  | inside =>
      rw [scanLines]
      simp only [htitle, hplace]
  | divider names =>
      have hdivider := hmet names rfl
      rw [List.headD_cons, isDivider, hcells] at hdivider
      cases hdivider
  | rows names =>
      rw [scanLines]
      simp only [hcells, hplace]

/-- Lines of the section before its table. -/
theorem scanLines_between (rest : List Text) : ∀ (between : List Text) (line : Nat),
    (∀ text ∈ between, sectionTitle text = none ∧ cells text = none) →
      scanLines locale .inside line (between ++ rest)
        = scanLines locale .inside (line + between.length) rest := by
  intro between
  induction between with
  | nil => exact fun _ _ => rfl
  | cons text between ih =>
      intro line hlines
      obtain ⟨⟨htitle, hcells⟩, hlines⟩ := List.forall_mem_cons.mp hlines
      rw [List.cons_append, scanLines]
      simp only [htitle, hcells]
      rw [placeAt, htitle]
      simp only [if_true]
      rw [ih (line + 1) hlines, List.length_cons, Nat.add_assoc line 1, Nat.add_comm 1]

/-- The rows of a table are read one after another. -/
theorem scanLines_rows (locale : Locale) (names : List Text) {row : Text} (rest : List Text) (hrow : (cells row).isSome = true) :
    ∀ (body : List Text) (line : Nat), (∀ text ∈ body, (cells text).isSome = true) →
      ∃ entry ∈ scanLines locale (.rows names) line (body ++ row :: rest), entry.At (line + body.length) row := by
  intro body
  induction body with
  | nil =>
      intro line _
      obtain ⟨found, hfound⟩ := Option.isSome_iff_exists.mp hrow
      rw [List.nil_append, scanLines, hfound]
      refine ⟨_, List.mem_cons_self, ?_⟩
      split
      · exact ⟨rfl, hfound⟩
      · exact rfl
  | cons text body ih =>
      intro line hbody
      obtain ⟨htext, hbody⟩ := List.forall_mem_cons.mp hbody
      obtain ⟨found, hfound⟩ := Option.isSome_iff_exists.mp htext
      obtain ⟨entry, hentry, hat⟩ := ih (line + 1) hbody
      rw [List.cons_append, scanLines, hfound]
      refine ⟨entry, List.mem_cons_of_mem _ hentry, ?_⟩
      rwa [List.length_cons, Nat.add_comm body.length, ← Nat.add_assoc]

/-- A line, by its number, is a row of the table whose header is another: behind the
heading of the section there is no other heading and no line of cells before the
header, and behind the header and one line more there are lines of cells only. -/
structure TableRow (lines : List Text) (header row : Nat) : Prop where
  split : ∃ (front between body rest : List Text) (heading names divider text title : Text),
    lines = front ++ heading :: (between ++ names :: divider :: (body ++ text :: rest)) ∧
    header = front.length + between.length + 2 ∧ row = header + body.length + 2 ∧
    sectionTitle heading = some title ∧ namesSection title = true ∧
    (∀ other ∈ between, sectionTitle other = none ∧ cells other = none) ∧
    (cells names).isSome = true ∧ (∀ other ∈ body, (cells other).isSome = true) ∧ (cells text).isSome = true

/-- **A row of a section's table is read, or it is reported**, or its table is. -/
theorem scanned_of_tableRow (locale : Locale) {lines : List Text} {header row : Nat} (h : TableRow lines header row) :
    (∃ entry ∈ scanLines locale .outside 1 lines, ∃ text, entry.At row text) ∨
      ∃ finding ∈ scannedDefects (scanLines locale .outside 1 lines), finding.line = some header := by
  obtain ⟨front, between, body, rest, heading, names, divider, text, title, rfl, hheader, hrow, htitle, hsection,
    hbetween, hnames, hbody, htext⟩ := h.split
  obtain ⟨found, place, hfront, hmet⟩ := scanLines_front locale
    (heading :: (between ++ names :: divider :: (body ++ text :: rest))) front .outside 1 nofun
  have hline : 1 + front.length + 1 + between.length = header := by omega
  rw [hfront, scanLines_heading hmet htitle hsection, scanLines_between _ _ _ hbetween, hline]
  obtain ⟨cellsOfHeader, hcells⟩ := Option.isSome_iff_exists.mp hnames
  have hno : sectionTitle names = none := by
    cases hsome : sectionTitle names with
    | none => rfl
    | some other =>
        rw [cells_of_sectionTitle hsome] at hcells
        cases hcells
  have hreported : ∀ {message field} {others : List Scanned}, ∃ finding ∈
      scannedDefects (found ++ tableDefect message header field :: others), finding.line = some header := by
    intro message field others
    refine ⟨_, List.mem_filterMap.mpr ⟨tableDefect message header field, ?_, rfl⟩, rfl⟩
    exact List.mem_append_right _ List.mem_cons_self
  rw [scanLines]
  simp only [hno, hcells]
  split
  · exact .inr hreported
  · split
    · exact .inr hreported
    · rw [scanLines]
      obtain ⟨entry, hentry, hat⟩ := scanLines_rows locale (headerNames locale cellsOfHeader) rest htext body
        (header + 1 + 1) hbody
      refine .inl ⟨entry, List.mem_append_right _ hentry, text, ?_⟩
      rwa [show header + 1 + 1 + body.length = row by omega] at hat

/-- What is read of lines is read at one of them, and of each line at most once. -/
theorem scanLines_at (locale : Locale) (lines : List Text) : ∀ (place : Place) (line : Nat),
    (∀ row ∈ scannedRows (scanLines locale place line lines), ∃ (index : Nat) (text : Text),
      lines[index]? = some text ∧ row.line = line + index ∧ cells text = some row.cells) ∧
    (scannedRows (scanLines locale place line lines)).Pairwise (·.line < ·.line) := by
  induction lines with
  | nil =>
      intro place line
      cases place <;> exact ⟨nofun, .nil⟩
  | cons text lines ih =>
      intro place line
      obtain ⟨here, next, hstep, hhere, -⟩ := scanLines_step locale place line text lines
      obtain ⟨hrows, hordered⟩ := ih next (line + 1)
      have hlater : ∀ row ∈ scannedRows (scanLines locale next (line + 1) lines), ∃ (index : Nat) (found : Text),
          (text :: lines)[index]? = some found ∧ row.line = line + index ∧ cells found = some row.cells := by
        intro row hrow
        obtain ⟨index, found, hfound, hline, hcells⟩ := hrows row hrow
        exact ⟨index + 1, found, hfound, by omega, hcells⟩
      have happend : scannedRows (here.toList ++ scanLines locale next (line + 1) lines)
          = here.toList.filterMap Scanned.row? ++ scannedRows (scanLines locale next (line + 1) lines) :=
        List.filterMap_append
      rw [hstep, happend]
      rcases here with _ | ⟨found | finding⟩
      · exact ⟨hlater, hordered⟩
      · obtain ⟨hline, hcells⟩ := hhere (.row found) rfl
        refine ⟨List.forall_mem_cons.mpr ⟨⟨0, text, rfl, hline, hcells⟩, hlater⟩,
          List.pairwise_cons.mpr ⟨fun row hrow => ?_, hordered⟩⟩
        obtain ⟨index, _, _, hrowLine, _⟩ := hrows row hrow
        omega
      · exact ⟨hlater, hordered⟩

end Scan

end Verification

end SingularityFlow
