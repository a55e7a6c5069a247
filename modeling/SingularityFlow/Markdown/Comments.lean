/-
# What the comments of a Markdown text cover

Over any part of a text, a pass over comments is a derivation of `Marked`: it
keeps a unit, blanks one inside of a comment, begins a comment or ends one.  The
scan of a line is such a derivation, and so is the first pass
(`firstPass_marked`).  What a derivation blanks is exactly what its comments
cover, and its comments are in order (`Marked.covers`).
-/
import SingularityFlow.Markdown.Structure

namespace SingularityFlow

open Ecma

namespace Markdown

/-! ## Lines and their texts -/

/-- The text that lines are of. -/
def joinLines (lines : List (Text × Text)) : Text := lines.flatMap fun line => line.1 ++ line.2

/-- No unit of the text ends a line. -/
def Unbroken (t : Text) : Prop := ∀ u ∈ t, isBreak u = false

/-- Lines as `splitBreaks` makes them. -/
inductive ProperLines : List (Text × Text) → Prop
  | last {text : Text} : Unbroken text → ProperLines [(text, [])]
  | lineFeed {text : Text} {lines : List (Text × Text)} : Unbroken text → ProperLines lines →
      ProperLines ((text, [0x0A]) :: lines)
  | both {text : Text} {lines : List (Text × Text)} : Unbroken text → ProperLines lines →
      ProperLines ((text, [0x0D, 0x0A]) :: lines)
  | carriageReturn {text : Text} {lines : List (Text × Text)} : Unbroken text →
      ProperLines lines → (joinLines lines).head? ≠ some 0x0A →
      ProperLines ((text, [0x0D]) :: lines)

theorem properLines_cons {u : UInt16} (hu : isBreak u = false) {text lineBreak : Text}
    {lines : List (Text × Text)} (h : ProperLines ((text, lineBreak) :: lines)) :
    ProperLines ((u :: text, lineBreak) :: lines) := by
  have hunbroken : ∀ {t : Text}, Unbroken t → Unbroken (u :: t) := fun h =>
    List.forall_mem_cons.mpr ⟨hu, h⟩
  cases h with
  | last h => exact .last (hunbroken h)
  | lineFeed h hlines => exact .lineFeed (hunbroken h) hlines
  | both h hlines => exact .both (hunbroken h) hlines
  | carriageReturn h hlines hhead => exact .carriageReturn (hunbroken h) hlines hhead

/-- A text is cut into lines and put together again. -/
theorem splitBreaks_spec (source : Text) :
    ProperLines (splitBreaks source) ∧ joinLines (splitBreaks source) = source := by
  have hnil : Unbroken ([] : Text) := fun _ h => absurd h List.not_mem_nil
  induction source using splitBreaks.induct with
  | case1 => exact ⟨.last hnil, rfl⟩
  | case2 =>
      refine ⟨?_, rfl⟩
      exact .carriageReturn hnil (.last hnil) (by decide)
  | case3 rest' ih =>
      have heq : splitBreaks (0x0D :: 0x0A :: rest') = ([], [0x0D, 0x0A]) :: splitBreaks rest' := by
        simp [splitBreaks]
      rw [heq]
      exact ⟨.both hnil ih.1, congrArg (fun t => 0x0D :: 0x0A :: t) ih.2⟩
  | case4 v rest' hv ih =>
      have heq : splitBreaks (0x0D :: v :: rest') = ([], [0x0D]) :: splitBreaks (v :: rest') := by
        conv_lhs => rw [splitBreaks.eq_def]
        simp [hv]
      rw [heq]
      refine ⟨.carriageReturn hnil ih.1 ?_, congrArg (0x0D :: ·) ih.2⟩
      rw [ih.2]
      exact fun h => hv (Option.some.inj h)
  | case5 rest hne ih =>
      have heq : splitBreaks (0x0A :: rest) = ([], [0x0A]) :: splitBreaks rest := by
        conv_lhs => rw [splitBreaks.eq_def]
        simp
      rw [heq]
      exact ⟨.lineFeed hnil ih.1, congrArg (0x0A :: ·) ih.2⟩
  | case6 u rest hcr hlf hempty ih =>
      rw [hempty] at ih
      exact absurd ih.1 (by rintro ⟨⟩)
  | case7 u rest hcr hlf text lineBreak lines hlines ih =>
      rw [hlines] at ih
      rw [splitBreaks.eq_def]
      simp only [hcr, hlf, if_false, hlines]
      refine ⟨properLines_cons ?_ ih.1, congrArg (u :: ·) ih.2⟩
      simp [isBreak, hcr, hlf]

theorem splitBreaks_unbroken : ∀ {text : Text} (rest : Text) {first lineBreak : Text}
    {lines : List (Text × Text)}, Unbroken text →
      splitBreaks rest = (first, lineBreak) :: lines →
        splitBreaks (text ++ rest) = (text ++ first, lineBreak) :: lines := by
  intro text
  induction text with
  | nil => exact fun _ _ _ _ _ h => h
  | cons u text ih =>
      intro rest first lineBreak lines hunbroken h
      obtain ⟨hu, htext⟩ := List.forall_mem_cons.mp hunbroken
      have hne : u ≠ 0x0D ∧ u ≠ 0x0A := by
        simp only [isBreak, Bool.or_eq_false_iff, decide_eq_false_iff_not] at hu
        exact hu.symm
      rw [List.cons_append, splitBreaks.eq_def]
      simp only [hne.1, hne.2, if_false, ih rest htext h]
      rfl

/-- Lines that are put together are cut into the same lines again. -/
theorem splitBreaks_joinLines {lines : List (Text × Text)} (h : ProperLines lines) :
    splitBreaks (joinLines lines) = lines := by
  induction h with
  | last h =>
      rw [joinLines, List.flatMap_cons, List.flatMap_nil, List.append_nil]
      simpa using splitBreaks_unbroken [] h rfl
  | @lineFeed text lines h _ ih =>
      have hrest : splitBreaks ([0x0A] ++ joinLines lines) = ([], [0x0A]) :: lines := by
        rw [List.singleton_append]
        conv_lhs => rw [splitBreaks.eq_def]
        simp [ih]
      rw [joinLines, List.flatMap_cons, ← joinLines, List.append_assoc]
      simpa using splitBreaks_unbroken _ h hrest
  | @both text lines h _ ih =>
      have hrest : splitBreaks ([0x0D, 0x0A] ++ joinLines lines) = ([], [0x0D, 0x0A]) :: lines := by
        rw [List.cons_append, List.singleton_append]
        conv_lhs => rw [splitBreaks.eq_def]
        simp [ih]
      rw [joinLines, List.flatMap_cons, ← joinLines, List.append_assoc]
      simpa using splitBreaks_unbroken _ h hrest
  | @carriageReturn text lines h hlines hhead ih =>
      have hrest : splitBreaks ([0x0D] ++ joinLines lines) = ([], [0x0D]) :: lines := by
        rw [List.singleton_append]
        conv_lhs => rw [splitBreaks.eq_def]
        cases hjoin : joinLines lines with
        | nil =>
            rw [hjoin] at ih
            rw [← ih]
            rfl
        | cons v rest =>
            rw [hjoin] at hhead ih
            have hv : v ≠ 0x0A := fun heq => hhead (congrArg some heq)
            simp [hv, ih]
      rw [joinLines, List.flatMap_cons, ← joinLines, List.append_assoc]
      simpa using splitBreaks_unbroken _ h hrest

/-- A line that is read as another: of the same length, and ended in the same way. -/
structure SameLine (line view : Text × Text) : Prop where
  length_eq : view.1.length = line.1.length
  unbroken : Unbroken view.1
  lineBreak_eq : view.2 = line.2

theorem sameLine_cons {text lineBreak : Text} {lines views : List (Text × Text)}
    (h : List.Forall₂ SameLine ((text, lineBreak) :: lines) views) :
    ∃ visible rest, views = (visible, lineBreak) :: rest ∧ visible.length = text.length
      ∧ Unbroken visible ∧ List.Forall₂ SameLine lines rest := by
  cases h with
  | @cons _ view _ rest hline hrest =>
      obtain ⟨visible, visibleBreak⟩ := view
      obtain ⟨hlength, hunbroken, rfl⟩ := hline
      exact ⟨visible, rest, rfl, hlength, hunbroken, hrest⟩

theorem head_joinLines {lines views : List (Text × Text)} (h : ProperLines lines)
    (hsame : List.Forall₂ SameLine lines views) :
    (joinLines views).head? = some 0x0A → (joinLines lines).head? = some 0x0A := by
  intro hhead
  obtain ⟨⟨text, lineBreak⟩, lines, rfl⟩ := List.exists_cons_of_ne_nil
    (show lines ≠ [] by rintro rfl; cases h)
  obtain ⟨visible, rest, rfl, hlength, hunbroken, hrest⟩ := sameLine_cons hsame
  rw [joinLines, List.flatMap_cons] at hhead
  cases visible with
  | cons u visible =>
      obtain rfl := Option.some.inj hhead
      exact absurd (hunbroken 0x0A List.mem_cons_self) (by decide)
  | nil =>
      obtain rfl := List.eq_nil_of_length_eq_zero hlength.symm
      cases h with
      | last =>
          cases hrest
          cases hhead
      | lineFeed => rfl
      | both => exact hhead
      | carriageReturn => exact hhead

/-- Lines of which the texts are changed, and neither their lengths nor how they
end. -/
theorem ProperLines.views {lines : List (Text × Text)} (h : ProperLines lines) :
    ∀ {views : List (Text × Text)}, List.Forall₂ SameLine lines views → ProperLines views := by
  induction h with
  | last h =>
      intro views hsame
      obtain ⟨visible, rest, rfl, -, hunbroken, hrest⟩ := sameLine_cons hsame
      cases hrest
      exact .last hunbroken
  | lineFeed h hlines ih =>
      intro views hsame
      obtain ⟨visible, rest, rfl, -, hunbroken, hrest⟩ := sameLine_cons hsame
      exact .lineFeed hunbroken (ih hrest)
  | both h hlines ih =>
      intro views hsame
      obtain ⟨visible, rest, rfl, -, hunbroken, hrest⟩ := sameLine_cons hsame
      exact .both hunbroken (ih hrest)
  | carriageReturn h hlines hhead ih =>
      intro views hsame
      obtain ⟨visible, rest, rfl, -, hunbroken, hrest⟩ := sameLine_cons hsame
      exact .carriageReturn hunbroken (ih hrest) (mt (head_joinLines hlines hrest) hhead)

/-! ## Derivations -/

/-- A unit that is blanked, or that ends a line. -/
def blankUnit (u : UInt16) : UInt16 := if isBreak u then u else 0x20

/-- A pass over a part of a text from an offset on: the comment that is open
before it, the part, what is visible of it, the comments that end in it, and the
comment that is open behind it. -/
inductive Marked : Nat → Option Open → Text → Text → List Comment → Option Open → Prop
  | done (offset : Nat) (comment : Option Open) : Marked offset comment [] [] [] comment
  | kept {offset : Nat} (u : UInt16) {t v : Text} {comments : List Comment} {after : Option Open} :
      Marked (offset + 1) none t v comments after →
      Marked offset none (u :: t) (u :: v) comments after
  | blanked {offset : Nat} {comment : Open} (u : UInt16) {t v : Text} {comments : List Comment}
      {after : Option Open} : Marked (offset + 1) (some comment) t v comments after →
      Marked offset (some comment) (u :: t) (blankUnit u :: v) comments after
  | opened {offset : Nat} (line : Nat) {t v : Text} {comments : List Comment}
      {after : Option Open} : Marked offset (some ⟨offset, line⟩) t v comments after →
      Marked offset none t v comments after
  | closed {offset : Nat} {comment : Open} {t v : Text} {comments : List Comment}
      {after : Option Open} : Marked offset none t v comments after →
      Marked offset (some comment) t v (⟨comment.start, offset, comment.line, true⟩ :: comments) after

/-- Passes are put together. -/
theorem Marked.append {offset : Nat} {before between after : Option Open} {t v t' v' : Text}
    {comments comments' : List Comment} (h : Marked offset before t v comments between)
    (h' : Marked (offset + t.length) between t' v' comments' after) :
    Marked offset before (t ++ t') (v ++ v') (comments ++ comments') after := by
  induction h with
  | done => exact h'
  | kept u _ ih => exact .kept u (ih (by rwa [List.length_cons, Nat.add_comm _ 1, ← Nat.add_assoc] at h'))
  | blanked u _ ih =>
      exact .blanked u (ih (by rwa [List.length_cons, Nat.add_comm _ 1, ← Nat.add_assoc] at h'))
  | opened line _ ih => exact .opened line (ih h')
  | closed _ ih => exact .closed (ih h')

theorem marked_kept : ∀ {offset : Nat} {t t' v' : Text} {comments : List Comment}
    {after : Option Open}, Marked (offset + t.length) none t' v' comments after →
      Marked offset none (t ++ t') (t ++ v') comments after := by
  intro offset t
  induction t generalizing offset with
  | nil => exact fun h => h
  | cons u t ih =>
      intro t' v' comments after h
      exact .kept u (ih (by rwa [List.length_cons, Nat.add_comm _ 1, ← Nat.add_assoc] at h))

theorem marked_blanked : ∀ {offset : Nat} (comment : Open) {t t' v' : Text} {comments : List Comment}
    {after : Option Open}, Marked (offset + t.length) (some comment) t' v' comments after →
      Marked offset (some comment) (t ++ t') (t.map blankUnit ++ v') comments after := by
  intro offset comment t
  induction t generalizing offset with
  | nil => exact fun h => h
  | cons u t ih =>
      intro t' v' comments after h
      exact .blanked u (ih (by rwa [List.length_cons, Nat.add_comm _ 1, ← Nat.add_assoc] at h))

theorem blank_eq {t : Text} (h : Unbroken t) : blank t = t.map blankUnit :=
  List.map_congr_left fun u hu => by rw [blankUnit, h u hu]; rfl

theorem Unbroken.take {t : Text} (h : Unbroken t) (n : Nat) : Unbroken (t.take n) :=
  fun u hu => h u (List.mem_of_mem_take hu)

theorem Unbroken.drop {t : Text} (h : Unbroken t) (n : Nat) : Unbroken (t.drop n) :=
  fun u hu => h u (List.mem_of_mem_drop hu)

theorem indexOf_le {needle : Text} : ∀ {t : Text} {n : Nat}, indexOf needle t = some n →
    n + needle.length ≤ t.length := by
  intro t
  induction t with
  | nil =>
      intro n h
      rw [indexOf] at h
      split at h
      · next hnil => cases h; rw [hnil]; rfl
      · cases h
  | cons u t ih =>
      intro n h
      rw [indexOf] at h
      split at h
      · next hfront =>
          cases h
          rw [Nat.zero_add]
          exact (List.isPrefixOf_iff_prefix.mp hfront).length_le
      · obtain ⟨m, hm, rfl⟩ := Option.map_eq_some_iff.mp h
        have := ih hm
        rw [List.length_cons]
        omega

theorem matchingBacktickRun_le {length : Nat} : ∀ {fuel : Nat} {t : Text} {close : Nat},
    matchingBacktickRun length fuel t = some close → close + length ≤ t.length := by
  intro fuel
  induction fuel with
  | zero => exact fun h => by cases h
  | succ fuel ih =>
      intro t close h
      cases t with
      | nil => cases h
      | cons u t =>
          rw [matchingBacktickRun] at h
          split at h
          · obtain ⟨n, hn, rfl⟩ := Option.map_eq_some_iff.mp h
            have := ih hn
            rw [List.length_cons]
            omega
          · have hrun := (List.takeWhile_sublist (fun v : UInt16 => decide (v = 0x60)) (l := u :: t)).length_le
            dsimp only at h
            split at h
            · next heq =>
                cases h
                rw [← heq]
                omega
            · obtain ⟨n, hn, rfl⟩ := Option.map_eq_some_iff.mp h
              have := ih hn
              rw [List.length_drop] at this
              omega

/-- The scan of a line is a pass. -/
theorem scan_marked {line : Nat} : ∀ {fuel : Nat} (comment : Option Open) (offset : Nat) {rest : Text},
    rest.length ≤ fuel → Unbroken rest →
      Marked offset comment rest (scan line fuel comment offset rest).visible
        (scan line fuel comment offset rest).comments (scan line fuel comment offset rest).comment := by
  intro fuel
  induction fuel with
  | zero =>
      intro comment offset rest hfuel _
      obtain rfl := List.eq_nil_of_length_eq_zero (Nat.le_zero.mp hfuel)
      exact .done offset comment
  | succ fuel ih =>
      intro comment offset rest hfuel hunbroken
      -- what is scanned behind a place
      have hbehind : ∀ n, 0 < n → n ≤ rest.length →
          Marked (offset + (rest.take n).length) none (rest.drop n)
            (scan line fuel none (offset + n) (rest.drop n)).visible
            (scan line fuel none (offset + n) (rest.drop n)).comments
            (scan line fuel none (offset + n) (rest.drop n)).comment := by
        intro n hpos hle
        rw [List.length_take_of_le hle]
        refine ih none (offset + n) ?_ (hunbroken.drop n)
        rw [List.length_drop]
        omega
      have hblanked : ∀ (comment : Open) (n : Nat), 0 < n → n ≤ rest.length →
          Marked offset (some comment) rest
            (blank (rest.take n) ++ (scan line fuel none (offset + n) (rest.drop n)).visible)
            (⟨comment.start, offset + n, comment.line, true⟩
              :: (scan line fuel none (offset + n) (rest.drop n)).comments)
            (scan line fuel none (offset + n) (rest.drop n)).comment := by
        intro comment n hpos hle
        have hmarked := marked_blanked comment (.closed (hbehind n hpos hle))
        rwa [List.take_append_drop, ← blank_eq (hunbroken.take n), List.length_take_of_le hle] at hmarked
      have hopen : ∀ comment : Open, Marked offset (some comment) rest (blank rest) [] (some comment) := by
        intro comment
        have hmarked := marked_blanked comment (.done (offset + rest.length) (some comment))
        rwa [List.append_nil, List.append_nil, ← blank_eq hunbroken] at hmarked
      have hkept : ∀ n, 0 < n → n ≤ rest.length →
          Marked offset none rest
            (rest.take n ++ (scan line fuel none (offset + n) (rest.drop n)).visible)
            (scan line fuel none (offset + n) (rest.drop n)).comments
            (scan line fuel none (offset + n) (rest.drop n)).comment := by
        intro n hpos hle
        have hmarked := marked_kept (hbehind n hpos hle)
        rwa [List.take_append_drop] at hmarked
      rw [scan.eq_def]
      cases rest with
      | nil => cases comment <;> exact .done offset _
      | cons u t =>
          cases comment with
          | some comment =>
              dsimp only
              cases hclose : indexOf (js "-->") (u :: t) with
              | none => exact hopen comment
              | some close => exact hblanked comment (close + 3) (by omega) (indexOf_le hclose)
          | none =>
              dsimp only
              split
              · next hbacktick =>
                  have hrun : 0 < ((u :: t).takeWhile (· = 0x60)).length := by
                    simp [hbacktick]
                  have hle := (List.takeWhile_sublist (fun v : UInt16 => decide (v = 0x60))
                    (l := u :: t)).length_le
                  generalize ((u :: t).takeWhile (· = 0x60)).length = n at hrun hle ⊢
                  cases hclose : matchingBacktickRun n t.length ((u :: t).drop n) with
                  | none => exact hkept n hrun hle
                  | some close =>
                      have := matchingBacktickRun_le hclose
                      rw [List.length_drop] at this
                      exact hkept (n + close + n) (by omega) (by omega)
              · split
                · next hopening =>
                    have hfour := (List.isPrefixOf_iff_prefix.mp hopening).length_le
                    cases hclose : indexOf (js "-->") ((u :: t).drop 4) with
                    | none => exact .opened line (hopen ⟨offset, line⟩)
                    | some close =>
                        have hle := indexOf_le hclose
                        rw [List.length_drop] at hle
                        have hlength : (js "-->").length = 3 := by decide
                        have hlength' : (js "<!--").length = 4 := by decide
                        exact .opened line (hblanked ⟨offset, line⟩ (4 + close + 3) (by omega) (by omega))
                · exact hkept 1 Nat.one_pos (by simp)

/-- The first pass over one line, in its two cases. -/
theorem viewLine_cases (state : State) (record : SourceLine) :
    (state.comment = none ∧ (viewLine state record).visible = record.text
        ∧ (viewLine state record).comments = [] ∧ (viewLine state record).fenced = true
        ∧ (viewLine state record).state.comment = none) ∨
    ((viewLine state record).fenced = false
      ∧ (state.comment = none → state.fence = none ∧ fenceMarker record.text = none)
      ∧ (viewLine state record).visible = (scan record.line record.text.length state.comment
          record.start record.text).visible
      ∧ (viewLine state record).comments = (scan record.line record.text.length state.comment
          record.start record.text).comments
      ∧ (viewLine state record).state = ⟨(scan record.line record.text.length state.comment
          record.start record.text).comment, state.fence⟩) := by
  obtain ⟨comment, fence⟩ := state
  cases comment with
  | some comment => exact Or.inr ⟨rfl, nofun, rfl, rfl, rfl⟩
  | none =>
      cases fence with
      | some fence => exact Or.inl ⟨rfl, rfl, rfl, rfl, rfl⟩
      | none =>
          cases hmarker : fenceMarker record.text with
          | some marker =>
              refine Or.inl ⟨rfl, ?_⟩
              simp [viewLine, hmarker]
          | none =>
              refine Or.inr ?_
              simp [viewLine, hmarker]

theorem viewLine_marked (state : State) (record : SourceLine) (h : Unbroken record.text) :
    Marked record.start state.comment record.text (viewLine state record).visible
      (viewLine state record).comments (viewLine state record).state.comment := by
  rcases viewLine_cases state record with ⟨hcomment, hvisible, hcomments, -, hstate⟩
    | ⟨-, -, hvisible, hcomments, hstate⟩
  · rw [hcomment, hvisible, hcomments, hstate]
    have hmarked := marked_kept (.done (record.start + record.text.length) none)
    rwa [List.append_nil] at hmarked
  · rw [hvisible, hcomments, hstate]
    exact scan_marked state.comment record.start le_rfl h

theorem break_marked (offset : Nat) (comment : Option Open) {lineBreak : Text}
    (h : ∀ u ∈ lineBreak, isBreak u = true) :
    Marked offset comment lineBreak lineBreak [] comment := by
  cases comment with
  | none =>
      have hmarked := marked_kept (.done (offset + lineBreak.length) none)
      rwa [List.append_nil] at hmarked
  | some comment =>
      have hmarked := marked_blanked comment (.done (offset + lineBreak.length) (some comment))
      have hsame : lineBreak.map blankUnit = lineBreak :=
        (List.map_congr_left fun u hu => if_pos (h u hu)).trans (List.map_id lineBreak)
      rwa [List.append_nil, List.append_nil, hsame] at hmarked

/-- What the lines of a text are made of. -/
theorem ProperLines.units {lines : List (Text × Text)} (h : ProperLines lines) :
    ∀ line ∈ lines, Unbroken line.1 ∧ ∀ u ∈ line.2, isBreak u = true := by
  induction h with
  | last h => exact List.forall_mem_singleton.mpr ⟨h, fun _ hu => absurd hu List.not_mem_nil⟩
  | lineFeed h _ ih =>
      refine List.forall_mem_cons.mpr ⟨⟨h, ?_⟩, ih⟩
      exact List.forall_mem_singleton.mpr rfl
  | both h _ ih =>
      refine List.forall_mem_cons.mpr ⟨⟨h, ?_⟩, ih⟩
      exact List.forall_mem_cons.mpr ⟨rfl, List.forall_mem_singleton.mpr rfl⟩
  | carriageReturn h _ _ ih =>
      refine List.forall_mem_cons.mpr ⟨⟨h, ?_⟩, ih⟩
      exact List.forall_mem_singleton.mpr rfl

/-- The first pass over the lines of a text is a pass over the text. -/
theorem viewLines_marked : ∀ {lines : List (Text × Text)} (line offset : Nat) (state : State),
    (∀ line ∈ lines, Unbroken line.1 ∧ ∀ u ∈ line.2, isBreak u = true) →
      Marked offset state.comment (joinLines lines)
        (joinLines (((viewLines state (numbered line offset lines)).map (·.2.visible)).zip
          (lines.map Prod.snd)))
        ((viewLines state (numbered line offset lines)).flatMap fun entry => entry.2.comments)
        (finalState state (viewLines state (numbered line offset lines))).comment := by
  intro lines
  induction lines with
  | nil => exact fun _ offset state _ => .done offset state.comment
  | cons piece lines ih =>
      obtain ⟨text, lineBreak⟩ := piece
      intro line offset state h
      obtain ⟨⟨htext, hbreak⟩, hlines⟩ := List.forall_mem_cons.mp h
      have hline := viewLine_marked state
        ⟨line, offset, offset + text.length, offset + text.length + lineBreak.length, text⟩ htext
      have hrest := ih (line + 1) (offset + text.length + lineBreak.length)
        (viewLine state ⟨line, offset, offset + text.length,
          offset + text.length + lineBreak.length, text⟩).state hlines
      have hmarked := (hline.append (break_marked _ _ hbreak)).append (by
        rw [List.length_append, ← Nat.add_assoc]
        exact hrest)
      rw [List.append_nil] at hmarked
      exact hmarked

theorem firstPass_marked (source : Text) :
    Marked 0 none source (visibleText source)
      ((firstPass source).flatMap fun entry => entry.2.comments)
      (finalState ⟨none, none⟩ (firstPass source)).comment := by
  obtain ⟨hproper, hjoin⟩ := splitBreaks_spec source
  have hmarked := viewLines_marked 1 0 ⟨none, none⟩ hproper.units
  rwa [hjoin] at hmarked

/-! ## What is covered -/

/-- The comment that a text leaves open. -/
def unclosed (stop : Nat) : Option Open → List Comment
  | none => []
  | some comment => [⟨comment.start, stop, comment.line, false⟩]

/-- Comments from an offset on, one behind the other. -/
def Ordered : Nat → List Comment → Prop
  | _, [] => True
  | offset, comment :: comments =>
      offset ≤ comment.start ∧ comment.start ≤ comment.stop ∧ Ordered comment.stop comments

theorem Ordered.mono {offset offset' : Nat} (hle : offset' ≤ offset) {comments : List Comment}
    (h : Ordered offset comments) : Ordered offset' comments := by
  cases comments with
  | nil => trivial
  | cons comment comments => exact ⟨hle.trans h.1, h.2⟩

theorem Ordered.le_start {offset : Nat} {comments : List Comment} (h : Ordered offset comments) :
    ∀ comment ∈ comments, offset ≤ comment.start := by
  induction comments generalizing offset with
  | nil => exact fun _ h => absurd h List.not_mem_nil
  | cons comment comments ih =>
      refine List.forall_mem_cons.mpr ⟨h.1, fun other hother => ?_⟩
      exact (h.1.trans h.2.1).trans (ih h.2.2 other hother)

theorem Ordered.pairwise {offset : Nat} {comments : List Comment} (h : Ordered offset comments) :
    comments.Pairwise (·.stop ≤ ·.start) := by
  induction comments generalizing offset with
  | nil => exact .nil
  | cons comment comments ih => exact .cons h.2.2.le_start (ih h.2.2)

/-- A place is inside of one of the comments. -/
def Inside (comments : List Comment) (place : Nat) : Bool :=
  comments.any fun comment => comment.start ≤ place && place < comment.stop

theorem Ordered.not_inside {offset place : Nat} {comments : List Comment} (h : Ordered offset comments)
    (hlt : place < offset) : Inside comments place = false := by
  refine List.any_eq_false.mpr fun comment hmem => ?_
  have := h.le_start comment hmem
  simp only [Bool.and_eq_true, decide_eq_true_eq, not_and]
  omega

/-- The text with what the comments cover blanked. -/
def coveredFrom (comments : List Comment) : Nat → Text → Text
  | _, [] => []
  | place, u :: t =>
      (if Inside comments place then blankUnit u else u) :: coveredFrom comments (place + 1) t

/-- A comment that ends before a place does not cover what is behind it. -/
theorem coveredFrom_cons {comment : Comment} {comments : List Comment} :
    ∀ {place : Nat} {t : Text}, comment.stop ≤ place →
      coveredFrom (comment :: comments) place t = coveredFrom comments place t := by
  intro place t
  induction t generalizing place with
  | nil => exact fun _ => rfl
  | cons u t ih =>
      intro hle
      have hinside : Inside (comment :: comments) place = Inside comments place := by
        rw [Inside, List.any_cons, ← Inside]
        have : ¬ place < comment.stop := by omega
        simp [this]
      rw [coveredFrom, coveredFrom, hinside, ih (by omega)]

/-- **A pass blanks what its comments cover, and its comments are in order.** -/
theorem Marked.covers {offset : Nat} {before after : Option Open} {t v : Text}
    {comments : List Comment} (h : Marked offset before t v comments after) :
    ∀ all, all = comments ++ unclosed (offset + t.length) after →
      (∀ comment, before = some comment → comment.start ≤ offset) →
      v = coveredFrom all offset t
        ∧ (before = none → Ordered offset all)
        ∧ ∀ comment, before = some comment → ∃ stop closed rest,
            all = ⟨comment.start, stop, comment.line, closed⟩ :: rest
              ∧ offset ≤ stop ∧ Ordered stop rest := by
  induction h with
  | done offset comment =>
      rintro all rfl hstart
      refine ⟨rfl, ?_, ?_⟩
      · rintro rfl
        trivial
      · rintro comment rfl
        exact ⟨offset, false, [], rfl, le_rfl, trivial⟩
  | @kept offset u t v comments after _ ih =>
      intro all hall _
      have hlength : offset + (u :: t).length = offset + 1 + t.length := by
        rw [List.length_cons]
        omega
      obtain ⟨hv, hordered, -⟩ := ih all (hlength ▸ hall) nofun
      have hnot := (hordered rfl).not_inside (Nat.lt_succ_self offset)
      refine ⟨?_, fun _ => (hordered rfl).mono (Nat.le_succ offset), nofun⟩
      rw [coveredFrom, hnot, hv]
      rfl
  | @blanked offset comment u t v comments after _ ih =>
      intro all hall hstart
      have hlength : offset + (u :: t).length = offset + 1 + t.length := by
        rw [List.length_cons]
        omega
      have hle := hstart comment rfl
      obtain ⟨hv, -, hopen⟩ := ih all (hlength ▸ hall) (by rintro _ ⟨⟩; omega)
      obtain ⟨stop, closed, rest, hrest, hstop, hordered⟩ := hopen comment rfl
      have hinside : Inside all offset = true := by
        rw [hrest, Inside, List.any_cons, Bool.or_eq_true]
        refine Or.inl ?_
        simp only [Bool.and_eq_true, decide_eq_true_eq]
        omega
      refine ⟨by rw [coveredFrom, hinside, hv]; rfl, nofun, ?_⟩
      rintro _ ⟨⟩
      exact ⟨stop, closed, rest, hrest, by omega, hordered⟩
  | @opened offset line t v comments after _ ih =>
      intro all hall _
      obtain ⟨hv, -, hopen⟩ := ih all hall (by rintro _ ⟨⟩; exact le_rfl)
      obtain ⟨stop, closed, rest, hrest, hstop, hordered⟩ := hopen _ rfl
      refine ⟨hv, fun _ => ?_, nofun⟩
      rw [hrest]
      exact ⟨le_rfl, hstop, hordered⟩
  | @closed offset comment t v comments after _ ih =>
      intro all hall hstart
      obtain ⟨hv, hordered, -⟩ := ih (comments ++ unclosed (offset + t.length) after) rfl nofun
      refine ⟨?_, nofun, ?_⟩
      · rw [hall, List.cons_append, coveredFrom_cons le_rfl, hv]
      · rintro _ ⟨⟩
        exact ⟨offset, true, _, hall, le_rfl, hordered rfl⟩

theorem commentsOf_eq (source : Text) :
    commentsOf source = ((firstPass source).flatMap fun entry => entry.2.comments)
      ++ unclosed source.length (finalState ⟨none, none⟩ (firstPass source)).comment := by
  rw [commentsOf]
  cases (finalState ⟨none, none⟩ (firstPass source)).comment <;> rfl

/-- **What is visible is the text with its comments blanked**, and the comments
are in order and apart. -/
theorem visibleText_covered (source : Text) :
    visibleText source = coveredFrom (commentsOf source) 0 source
      ∧ Ordered 0 (commentsOf source) := by
  obtain ⟨hvisible, hordered, -⟩ := (firstPass_marked source).covers (commentsOf source)
    (by rw [commentsOf_eq, Nat.zero_add]) nofun
  exact ⟨hvisible, hordered rfl⟩

end Markdown

end SingularityFlow
