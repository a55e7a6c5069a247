/-
# The fences of the two passes over a Markdown text

The first pass reads the lines of the text, the second the lines of what is
visible.  The lines are the same (`sourceLines_visibleText`), and the two passes
agree about fences as far as no line is a `Trap`: one that is a fence for the
second pass alone.
-/
import SingularityFlow.Markdown.Comments

namespace SingularityFlow

open Ecma

namespace Markdown

/-! ## How a fence begins -/

/-- Three backticks or three tildes. -/
def startsRun (t : Text) : Bool := (js "```").isPrefixOf t || (js "~~~").isPrefixOf t

/-- At most so many blanks, and a run of marks. -/
def beginsFence : Nat → Text → Bool
  | _, [] => false
  | blanks, u :: rest =>
      if u = 0x20 then
        match blanks with
        | 0 => false
        | blanks + 1 => beginsFence blanks rest
      else startsRun (u :: rest)

theorem beginsFence_mark {blanks : Nat} {u : UInt16} (rest : Text) (hu : u ≠ 0x20) :
    beginsFence blanks (u :: rest) = startsRun (u :: rest) := by
  rw [beginsFence.eq_def]
  exact if_neg hu

/-- Marks stand at the front of a text as far as its run of them goes. -/
theorem marks_isPrefixOf (u : UInt16) : ∀ (t : Text) (n : Nat),
    (List.replicate n u).isPrefixOf t = decide (n ≤ (t.takeWhile (· = u)).length) := by
  intro t
  induction t with
  | nil =>
      intro n
      cases n with
      | zero => rfl
      | succ n => rfl
  | cons v t ih =>
      intro n
      cases n with
      | zero => simp
      | succ n =>
          rw [List.replicate_succ, List.isPrefixOf_cons_cons, ih n]
          by_cases hv : v = u
          · simp [hv]
          · simp [hv, Ne.symm hv]

theorem startsRun_eq (t : Text) : startsRun t = (decide (3 ≤ (t.takeWhile (· = 0x60)).length)
    || decide (3 ≤ (t.takeWhile (· = 0x7E)).length)) := by
  rw [startsRun, show js "```" = List.replicate 3 0x60 by decide,
    show js "~~~" = List.replicate 3 0x7E by decide, marks_isPrefixOf, marks_isPrefixOf]

theorem startsRun_cons {u : UInt16} {t : Text} : startsRun (u :: t)
    = ((u = 0x60 || u = 0x7E) && decide (3 ≤ ((u :: t).takeWhile (· = u)).length)) := by
  rw [startsRun_eq]
  by_cases htick : u = 0x60
  · subst htick
    simp
  · by_cases htilde : u = 0x7E
    · subst htilde
      simp
    · simp [htick, htilde]

theorem beginsFence_eq : ∀ (t : Text) (blanks : Nat), beginsFence blanks t
    = (decide ((t.takeWhile (· = 0x20)).length ≤ blanks) && startsRun (t.dropWhile (· = 0x20))) := by
  intro t
  induction t with
  | nil => exact fun blanks => by simp [beginsFence, startsRun_eq]
  | cons u t ih =>
      intro blanks
      by_cases hu : u = 0x20
      · cases blanks with
        | zero => simp [beginsFence, hu]
        | succ blanks => simp [beginsFence, hu, ih blanks]
      · rw [beginsFence_mark t hu]
        simp [hu]

theorem any_dropWhile {p q : UInt16 → Bool} (h : ∀ u, p u = true → q u = false) (t : Text) :
    (t.dropWhile p).any q = t.any q := by
  induction t with
  | nil => rfl
  | cons u t ih =>
      rw [List.dropWhile_cons]
      split
      · next hu => rw [ih, List.any_cons, h u hu, Bool.false_or]
      · rfl

/-- A line is a fence if it begins as one and `.` matches all that is behind. -/
theorem fenceMarker_isSome (line : Text) :
    (fenceMarker line).isSome = (beginsFence 3 line && !line.any isTerminator) := by
  have hblanks : line.any isTerminator = (line.dropWhile (· = 0x20)).any isTerminator := by
    refine (any_dropWhile (fun u hu => ?_) line).symm
    rw [of_decide_eq_true hu]
    decide
  rw [beginsFence_eq, hblanks, fenceMarker]
  by_cases hindent : (line.takeWhile (· = 0x20)).length ≤ 3
  · rw [if_neg (by omega), decide_eq_true hindent, Bool.true_and]
    cases line.dropWhile (· = 0x20) with
    | nil => simp [startsRun_eq]
    | cons u rest =>
        dsimp only
        by_cases hmark : u = 0x60 ∨ u = 0x7E
        · have hrun : ((u :: rest).dropWhile (· = u)).any isTerminator
              = (u :: rest).any isTerminator := by
            refine any_dropWhile (fun v hv => ?_) (u :: rest)
            rw [of_decide_eq_true hv]
            rcases hmark with rfl | rfl <;> decide
          rw [hrun, startsRun_cons]
          split <;> simp_all
        · rw [startsRun_cons]
          simp [hmark]
  · rw [if_pos (by omega), decide_eq_false hindent]
    rfl

/-! ## What blanking leaves of the front of a line -/

/-- Two texts are the same, or have the same front and go on with the mark of a
comment and with four blanks. -/
def Alike (text visible : Text) : Prop :=
  visible = text ∨ ∃ front rest rest', text = front ++ (js "<!--" ++ rest)
    ∧ visible = front ++ (List.replicate 4 0x20 ++ rest')

theorem Alike.append {text visible : Text} (h : Alike text visible) (front : Text) :
    Alike (front ++ text) (front ++ visible) := by
  rcases h with rfl | ⟨between, rest, rest', rfl, rfl⟩
  · exact Or.inl rfl
  · exact Or.inr ⟨front ++ between, rest, rest', (List.append_assoc ..).symm,
      (List.append_assoc ..).symm⟩

theorem startsRun_append {front : Text} {u : UInt16} {rest : Text} (htick : u ≠ 0x60)
    (htilde : u ≠ 0x7E) : startsRun (front ++ u :: rest) = startsRun front := by
  -- the unit ends a run of any marks
  have hrun : ∀ v : UInt16, u ≠ v → (front ++ u :: rest).takeWhile (· = v)
      = front.takeWhile (· = v) := by
    intro v hv
    induction front with
    | nil => simp [hv]
    | cons w front ih =>
        rw [List.cons_append, List.takeWhile_cons, List.takeWhile_cons, ih]
  rw [startsRun_eq, startsRun_eq, hrun _ htick, hrun _ htilde]

theorem Alike.startsRun_eq {text visible : Text} (h : Alike text visible) :
    startsRun visible = startsRun text := by
  rcases h with rfl | ⟨front, rest, rest', rfl, rfl⟩
  · rfl
  · exact (startsRun_append (by decide) (by decide)).trans
      (startsRun_append (by decide) (by decide)).symm

theorem Alike.beginsFence_eq {text visible : Text} (h : Alike text visible) :
    ∀ {blanks : Nat}, blanks ≤ 3 → beginsFence blanks visible = beginsFence blanks text := by
  rcases h with rfl | ⟨front, rest, rest', rfl, rfl⟩
  · exact fun _ => rfl
  · induction front with
    | nil =>
        intro blanks hle
        have hmark : beginsFence blanks (js "<!--" ++ rest) = false := by
          rw [show js "<!--" = [0x3C, 0x21, 0x2D, 0x2D] by decide, List.cons_append,
            beginsFence_mark _ (by decide), startsRun_cons]
          rfl
        rw [List.nil_append, List.nil_append, hmark, SingularityFlow.Markdown.beginsFence_eq]
        have hlong : ¬ ((List.replicate 4 (0x20 : UInt16) ++ rest').takeWhile (· = 0x20)).length
            ≤ blanks := by
          simp [List.replicate]
          omega
        rw [decide_eq_false hlong, Bool.false_and]
    | cons u front ih =>
        intro blanks hle
        have hruns : startsRun (u :: front ++ (List.replicate 4 0x20 ++ rest'))
            = startsRun (u :: front ++ (js "<!--" ++ rest)) :=
          Alike.startsRun_eq (Or.inr ⟨u :: front, rest, rest', rfl, rfl⟩)
        rw [List.cons_append, List.cons_append] at hruns ⊢
        by_cases hu : u = 0x20
        · subst hu
          cases blanks with
          | zero => rfl
          | succ blanks => exact ih (by omega)
        · rw [beginsFence_mark _ hu, beginsFence_mark _ hu, hruns]

/-- Four units are blanked at the least. -/
theorem blank_take {t : Text} {n : Nat} (hfour : 4 ≤ n) (hle : n ≤ t.length) :
    ∃ rest, blank (t.take n) = List.replicate 4 0x20 ++ rest := by
  refine ⟨List.replicate (n - 4) 0x20, ?_⟩
  rw [← List.replicate_add, blank, List.map_const', List.length_take_of_le hle]
  congr 1
  omega

/-- A scan that begins outside of a comment leaves the front of a line. -/
theorem scan_alike (line : Nat) : ∀ (fuel offset : Nat) (rest : Text),
    Alike rest (scan line fuel none offset rest).visible := by
  intro fuel
  induction fuel with
  | zero => exact fun _ _ => Or.inl rfl
  | succ fuel ih =>
      intro offset rest
      have hkept : ∀ n, Alike rest (rest.take n
          ++ (scan line fuel none (offset + n) (rest.drop n)).visible) := by
        intro n
        have halike := (ih (offset + n) (rest.drop n)).append (rest.take n)
        rwa [List.take_append_drop] at halike
      rw [scan.eq_def]
      cases rest with
      | nil => exact Or.inl rfl
      | cons u rest =>
          dsimp only
          split
          · cases matchingBacktickRun ((u :: rest).takeWhile (· = 0x60)).length rest.length
              ((u :: rest).drop ((u :: rest).takeWhile (· = 0x60)).length) with
            | none => exact hkept _
            | some close => exact hkept _
          · split
            · next hopening =>
                obtain ⟨behind, hbehind⟩ := List.isPrefixOf_iff_prefix.mp hopening
                have hfour : 4 ≤ (u :: rest).length :=
                  (List.isPrefixOf_iff_prefix.mp hopening).length_le
                refine Or.inr ⟨[], behind, ?_⟩
                cases hclose : indexOf (js "-->") ((u :: rest).drop 4) with
                | none =>
                    obtain ⟨rest', hrest'⟩ := blank_take hfour (le_refl (u :: rest).length)
                    rw [List.take_length] at hrest'
                    exact ⟨rest', hbehind.symm, hrest'⟩
                | some close =>
                    have hle := indexOf_le hclose
                    rw [List.length_drop, show (js "-->").length = 3 by decide] at hle
                    obtain ⟨rest', hrest'⟩ := blank_take (t := u :: rest) (n := 4 + close + 3)
                      (by omega) (by omega)
                    refine ⟨rest' ++ (scan line fuel none (offset + (4 + close + 3))
                      ((u :: rest).drop (4 + close + 3))).visible, hbehind.symm, ?_⟩
                    dsimp only
                    rw [hrest', List.append_assoc]
                    rfl
            · exact hkept 1

/-! ## Lines that are read as fences -/

theorem indexOf_eq_zero {needle : Text} {u : UInt16} {rest : Text} :
    indexOf needle (u :: rest) = some 0 ↔ needle.isPrefixOf (u :: rest) = true := by
  rw [indexOf]
  split
  · next h => exact ⟨fun _ => h, fun _ => rfl⟩
  · next h =>
      refine ⟨fun hzero => ?_, fun hfront => absurd hfront h⟩
      obtain ⟨_, _, hsucc⟩ := Option.map_eq_some_iff.mp hzero
      cases hsucc

theorem beginsFence_zero (t : Text) : beginsFence 0 t = startsRun t := by
  cases t with
  | nil => rfl
  | cons u t =>
      by_cases hu : u = 0x20
      · subst hu
        rw [startsRun_cons]
        rfl
      · exact beginsFence_mark t hu

/-- A line that begins inside of a comment is read as a fence if the comment ends
at its front, and a fence begins there. -/
theorem beginsFence_scan_open {line fuel : Nat} (comment : Open) (offset : Nat) {rest : Text}
    (hfuel : rest.length ≤ fuel) :
    beginsFence 3 (scan line fuel (some comment) offset rest).visible
      = ((js "-->").isPrefixOf rest && startsRun (rest.drop 3)) := by
  rw [scan.eq_def]
  cases fuel with
  | zero =>
      obtain rfl := List.eq_nil_of_length_eq_zero (Nat.le_zero.mp hfuel)
      rfl
  | succ fuel =>
      cases rest with
      | nil => rfl
      | cons u rest =>
          dsimp only
          cases hclose : indexOf (js "-->") (u :: rest) with
          | none =>
              have hfront : (js "-->").isPrefixOf (u :: rest) = false := by
                refine Bool.eq_false_iff.mpr fun h => ?_
                rw [indexOf_eq_zero.mpr h] at hclose
                cases hclose
              have hblank : (blank (u :: rest)).dropWhile (· = 0x20) = [] := by
                rw [blank, List.dropWhile_eq_nil_iff]
                intro v hv
                obtain ⟨_, _, rfl⟩ := List.mem_map.mp hv
                rfl
              rw [hfront, beginsFence_eq, hblank, startsRun_eq]
              simp
          | some close =>
              dsimp only
              have hle := indexOf_le hclose
              rw [show (js "-->").length = 3 by decide] at hle
              cases close with
              | zero =>
                  -- the three units of the mark are the blanks that a fence may have
                  have hthree : blank ((u :: rest).take 3) = [0x20, 0x20, 0x20] := by
                    rw [blank, List.map_const', List.length_take_of_le (by omega)]
                    rfl
                  have halike := (scan_alike line fuel (offset + 3)
                    ((u :: rest).drop 3)).startsRun_eq
                  rw [indexOf_eq_zero.mp hclose, Bool.true_and, ← halike, hthree]
                  exact beginsFence_zero _
              | succ close =>
                  have hfront : (js "-->").isPrefixOf (u :: rest) = false := by
                    refine Bool.eq_false_iff.mpr fun h => ?_
                    rw [indexOf_eq_zero.mpr h] at hclose
                    cases hclose
                  obtain ⟨rest', hrest'⟩ := blank_take (t := u :: rest) (n := close + 1 + 3)
                    (by omega) (by omega)
                  rw [hfront, hrest', beginsFence_eq]
                  simp [List.replicate]

/-! ## Lines that the passes read apart -/

/-- A line that is outside of fences, and a fence for the second pass alone: it
begins inside of a comment that ends at its front, and a fence begins there; or
it begins as a fence, and is none for a separator in it.  There is no separator
outside of its comments. -/
def Trap (state : State) (text visible : Text) : Prop :=
  state.fence = none ∧ visible.any isTerminator = false ∧
    match state.comment with
    | some _ => (js "-->").isPrefixOf text = true ∧ startsRun (text.drop 3) = true
    | none => beginsFence 3 text = true ∧ text.any isTerminator = true

/-- No comment begins in a fence. -/
def Apart (state : State) : Prop := state.comment ≠ none → state.fence = none

theorem viewLine_apart {state : State} (record : SourceLine) (h : Apart state) :
    Apart (viewLine state record).state := by
  rcases viewLine_cases state record with ⟨-, -, -, -, hcomment⟩ | ⟨hfenced, -, -, -, hstate⟩
  · exact fun hne => absurd hcomment hne
  · intro _
    rw [hstate]
    by_cases hcomment : state.comment = none
    · obtain ⟨comment, fence⟩ := state
      obtain rfl : comment = none := hcomment
      cases fence with
      | none => rfl
      | some fence => cases hfenced
    · exact h hcomment

/-- A line that the first pass reads outside of fences is a fence for the second
if and only if it is a trap. -/
theorem fenceMarker_visible {state : State} {record : SourceLine} (h : Apart state)
    (hfenced : (viewLine state record).fenced = false) :
    state.fence = none ∧ (viewLine state record).state.fence = none
      ∧ ((fenceMarker (viewLine state record).visible).isSome = true
        ↔ Trap state record.text (viewLine state record).visible) := by
  rcases viewLine_cases state record with ⟨-, -, -, htrue, -⟩ | ⟨-, hnone, hvisible, -, hstate⟩
  · rw [hfenced] at htrue
    cases htrue
  · rw [hvisible, hstate]
    obtain ⟨comment, fence⟩ := state
    cases comment with
    | some comment =>
        obtain rfl : fence = none := h nofun
        refine ⟨rfl, rfl, ?_⟩
        rw [fenceMarker_isSome, beginsFence_scan_open comment record.start le_rfl, Trap]
        simp only [Bool.and_eq_true, Bool.not_eq_true', true_and]
        exact and_comm
    | none =>
        obtain ⟨rfl, hmarker⟩ := hnone rfl
        refine ⟨rfl, rfl, ?_⟩
        have hbegins := (scan_alike record.line record.text.length record.start
          record.text).beginsFence_eq (le_refl 3)
        have hseparator : beginsFence 3 record.text = true → record.text.any isTerminator = true := by
          intro hbegins
          have hsome := fenceMarker_isSome record.text
          rw [hmarker, hbegins, Bool.true_and] at hsome
          cases hany : record.text.any isTerminator with
          | true => rfl
          | false =>
              rw [hany] at hsome
              cases hsome
        rw [fenceMarker_isSome, hbegins, Trap]
        simp only [Bool.and_eq_true, Bool.not_eq_true', true_and]
        tauto

/-! ## The lines of the two passes -/

/-- The lines with what is visible of them. -/
def visibleLines : List SourceLine → List (State × LineView) → List SourceLine :=
  List.zipWith fun record entry => { record with text := entry.2.visible }

/-- A line that the first pass reads as part of a fence is so read by the second. -/
theorem headingPass_fenced {state : State} {record : SourceLine} (records : List SourceLine)
    (hfenced : (viewLine state record).fenced = true) :
    headingPass state.fence ({ record with text := (viewLine state record).visible } :: records)
      = (true, none) :: headingPass (viewLine state record).state.fence records := by
  rcases viewLine_cases state record with ⟨hcomment, hvisible, -, -, -⟩ | ⟨hfalse, -⟩
  · rw [hvisible]
    obtain ⟨comment, fence⟩ := state
    obtain rfl : comment = none := hcomment
    cases fence with
    | some fence => rfl
    | none =>
        cases hmarker : fenceMarker record.text with
        | none =>
            rw [viewLine] at hfenced
            simp [hmarker] at hfenced
        | some marker => simp [headingPass, viewLine, hmarker]
  · rw [hfenced] at hfalse
    cases hfalse

theorem not_trap_of_fenced {state : State} {record : SourceLine} {visible : Text}
    (hfenced : (viewLine state record).fenced = true) : ¬ Trap state record.text visible := by
  rintro ⟨hfence, -, htrap⟩
  obtain ⟨comment, fence⟩ := state
  obtain rfl : fence = none := hfence
  cases comment with
  | some comment => cases hfenced
  | none =>
      have hsome := fenceMarker_isSome record.text
      rw [htrap.1, htrap.2] at hsome
      have hmarker : fenceMarker record.text = none := Option.not_isSome_iff_eq_none.mp (by simp [hsome])
      rw [viewLine] at hfenced
      simp [hmarker] at hfenced

/-- **The two passes agree about fences if and only if no line is a trap.** -/
theorem headingPass_iff : ∀ (records : List SourceLine) {state : State}, Apart state →
    ((headingPass state.fence (visibleLines records (viewLines state records))).map Prod.fst
        = (viewLines state records).map (·.2.fenced)
      ↔ ∀ entry ∈ records.zip (viewLines state records),
        ¬ Trap entry.2.1 entry.1.text entry.2.2.visible) := by
  intro records
  induction records with
  | nil => exact fun _ => ⟨fun _ _ h => absurd h List.not_mem_nil, fun _ => rfl⟩
  | cons record records ih =>
      intro state h
      have hrest := ih (viewLine_apart record h)
      rw [viewLines, List.zip_cons_cons, List.forall_mem_cons, visibleLines, List.zipWith_cons_cons,
        ← visibleLines, List.map_cons, ← hrest]
      dsimp only
      cases hfenced : (viewLine state record).fenced with
      | true =>
          rw [headingPass_fenced _ hfenced, List.map_cons]
          exact ⟨fun heq => ⟨not_trap_of_fenced hfenced, List.tail_eq_of_cons_eq heq⟩,
            fun heq => congrArg _ heq.2⟩
      | false =>
          obtain ⟨hnone, hnext, htrap⟩ := fenceMarker_visible h hfenced
          rw [hnone, hnext, ← htrap, headingPass]
          cases hmarker : fenceMarker (viewLine state record).visible with
          | some marker => simp
          | none => simp

/-- A line outside of fences is reported if it is a heading. -/
theorem headingPass_eq : ∀ (records : List SourceLine) (fence : Option Fence),
    headingPass fence records = List.zipWith
      (fun fenced record => (fenced, if fenced then none else headingOf record))
      ((headingPass fence records).map Prod.fst) records := by
  intro records
  induction records with
  | nil => exact fun _ => rfl
  | cons record records ih =>
      intro fence
      cases fence with
      | some fence => exact congrArg ((true, none) :: ·) (ih _)
      | none =>
          rw [headingPass]
          cases fenceMarker record.text with
          | none => exact congrArg ((false, headingOf record) :: ·) (ih _)
          | some marker => exact congrArg ((true, none) :: ·) (ih _)

theorem Marked.same {offset : Nat} {before after : Option Open} {t v : Text}
    {comments : List Comment} (h : Marked offset before t v comments after) :
    v.length = t.length ∧ (Unbroken t → Unbroken v) := by
  induction h with
  | done => exact ⟨rfl, fun h => h⟩
  | kept u _ ih =>
      refine ⟨congrArg (· + 1) ih.1, fun h => ?_⟩
      obtain ⟨hu, ht⟩ := List.forall_mem_cons.mp h
      exact List.forall_mem_cons.mpr ⟨hu, ih.2 ht⟩
  | blanked u _ ih =>
      refine ⟨congrArg (· + 1) ih.1, fun h => ?_⟩
      obtain ⟨hu, ht⟩ := List.forall_mem_cons.mp h
      refine List.forall_mem_cons.mpr ⟨?_, ih.2 ht⟩
      rw [blankUnit, hu]
      rfl
  | opened _ _ ih => exact ih
  | closed _ ih => exact ih

/-- The lines of a text as the first pass leaves them. -/
theorem numbered_views : ∀ {lines : List (Text × Text)} (line offset : Nat) (state : State),
    (∀ line ∈ lines, Unbroken line.1 ∧ ∀ u ∈ line.2, isBreak u = true) →
      List.Forall₂ SameLine lines (((viewLines state (numbered line offset lines)).map
          (·.2.visible)).zip (lines.map Prod.snd))
        ∧ numbered line offset (((viewLines state (numbered line offset lines)).map
            (·.2.visible)).zip (lines.map Prod.snd))
          = visibleLines (numbered line offset lines) (viewLines state (numbered line offset lines))
        ∧ (viewLines state (numbered line offset lines)).length = lines.length := by
  intro lines
  induction lines with
  | nil => exact fun _ _ _ _ => ⟨.nil, rfl, rfl⟩
  | cons piece lines ih =>
      obtain ⟨text, lineBreak⟩ := piece
      intro line offset state h
      obtain ⟨⟨htext, hbreak⟩, hlines⟩ := List.forall_mem_cons.mp h
      have hsame := (viewLine_marked state ⟨line, offset, offset + text.length,
        offset + text.length + lineBreak.length, text⟩ htext).same
      obtain ⟨hviews, hnumbered, hlength⟩ := ih (line + 1) (offset + text.length + lineBreak.length)
        (viewLine state ⟨line, offset, offset + text.length,
          offset + text.length + lineBreak.length, text⟩).state hlines
      refine ⟨.cons ⟨hsame.1, hsame.2 htext, rfl⟩ hviews, ?_, congrArg (· + 1) hlength⟩
      simp only [numbered, viewLines, List.map_cons, List.zip_cons_cons, visibleLines,
        List.zipWith_cons_cons, hsame.1]
      exact congrArg _ hnumbered

theorem splitBreaks_visibleText (source : Text) :
    splitBreaks (visibleText source)
      = ((firstPass source).map (·.2.visible)).zip ((splitBreaks source).map Prod.snd) := by
  obtain ⟨hproper, -⟩ := splitBreaks_spec source
  exact splitBreaks_joinLines (hproper.views (numbered_views 1 0 ⟨none, none⟩ hproper.units).1)

/-- The second pass has the lines of the first, with what is visible of them. -/
theorem sourceLines_visibleText (source : Text) :
    sourceLines (visibleText source) = visibleLines (sourceLines source) (firstPass source) := by
  obtain ⟨hproper, -⟩ := splitBreaks_spec source
  rw [sourceLines, splitBreaks_visibleText]
  exact (numbered_views 1 0 ⟨none, none⟩ hproper.units).2.1

theorem getElem?_coveredFrom (comments : List Comment) : ∀ (t : Text) (offset place : Nat),
    (coveredFrom comments offset t)[place]?
      = t[place]?.map fun u => if Inside comments (offset + place) then blankUnit u else u := by
  intro t
  induction t with
  | nil => exact fun _ _ => rfl
  | cons u t ih =>
      intro offset place
      cases place with
      | zero => rfl
      | succ place =>
          rw [coveredFrom, List.getElem?_cons_succ, List.getElem?_cons_succ, ih,
            Nat.add_right_comm offset 1 place]
          rfl

theorem viewLines_apart : ∀ (records : List SourceLine) {state : State}, Apart state →
    ∀ entry ∈ records.zip (viewLines state records),
      Apart entry.2.1 ∧ entry.2.2 = viewLine entry.2.1 entry.1 := by
  intro records
  induction records with
  | nil => exact fun _ _ h => absurd h List.not_mem_nil
  | cons record records ih =>
      intro state h
      exact List.forall_mem_cons.mpr ⟨⟨h, rfl⟩, ih (viewLine_apart record h)⟩

theorem boundHeadings_fst (length : Nat) : ∀ headings : List Heading,
    (boundHeadings length headings).map Prod.fst = headings
  | [] => rfl
  | _ :: headings => congrArg _ (boundHeadings_fst length headings)

theorem boundHeadings_ends (length : Nat) : ∀ (headings : List Heading) (place : Nat)
    (heading : Heading) (stop : Nat), (boundHeadings length headings)[place]? = some (heading, stop) →
      stop = ((((boundHeadings length headings).drop (place + 1)).find?
        (·.1.level ≤ heading.level)).map (·.1.index)).getD length := by
  intro headings
  induction headings with
  | nil => exact fun _ _ _ h => by cases h
  | cons first headings ih =>
      intro place heading stop h
      cases place with
      | zero =>
          cases h
          rw [boundHeadings, Nat.zero_add, List.drop_one, List.tail_cons]
          conv_lhs => rw [← boundHeadings_fst length headings]
          rw [List.find?_map, Option.map_map]
          rfl
      | succ place => exact ih place heading stop h

theorem sameLine_map {lines views : List (Text × Text)} (h : List.Forall₂ SameLine lines views) :
    views.map (fun line => (line.1.length, line.2)) = lines.map fun line => (line.1.length, line.2) := by
  induction h with
  | nil => rfl
  | cons hline _ ih => rw [List.map_cons, List.map_cons, ih, hline.length_eq, hline.lineBreak_eq]

theorem Ordered.start_le_stop {offset : Nat} {comments : List Comment} (h : Ordered offset comments) :
    ∀ comment ∈ comments, comment.start ≤ comment.stop := by
  induction comments generalizing offset with
  | nil => exact fun _ h => absurd h List.not_mem_nil
  | cons comment comments ih => exact List.forall_mem_cons.mpr ⟨h.2.1, ih h.2.2⟩

theorem filterMap_headings : ∀ (records : List SourceLine) (entries : List (State × LineView)),
    (List.zipWith (fun fenced record => (fenced, if fenced then none else headingOf record))
        (entries.map (·.2.fenced)) (visibleLines records entries)).filterMap Prod.snd
      = (records.zip entries).filterMap fun (record, _, view) =>
          if view.fenced then none else headingOf { record with text := view.visible } := by
  intro records
  induction records with
  | nil =>
      intro entries
      simp [visibleLines]
  | cons record records ih =>
      intro entries
      cases entries with
      | nil => rfl
      | cons entry entries =>
          rw [List.map_cons, visibleLines, List.zipWith_cons_cons, List.zipWith_cons_cons,
            List.zip_cons_cons, List.filterMap_cons, List.filterMap_cons, ← visibleLines, ih entries]

/-! ## One consistent view -/

/-- The view of a text is consistent. -/
structure Consistent (source : Text) : Prop where
  /-- A unit is blanked if and only if it is inside of a comment. -/
  visible : ∀ place : Nat, (parseMarkdownStructure source).visibleText[place]?
    = source[place]?.map fun u =>
        if Inside (parseMarkdownStructure source).comments place then blankUnit u else u
  /-- The lines have the same lengths and the same breaks. -/
  lineBreaks : (splitBreaks (parseMarkdownStructure source).visibleText).map
      (fun line => (line.1.length, line.2))
    = (splitBreaks source).map fun line => (line.1.length, line.2)
  /-- The comments are in order, and no two of them overlap. -/
  comments : (parseMarkdownStructure source).comments.Pairwise (·.stop ≤ ·.start)
    ∧ ∀ comment ∈ (parseMarkdownStructure source).comments, comment.start ≤ comment.stop
  /-- The lines of fences are the same for the two passes. -/
  fences : (secondPass source).map Prod.fst = (firstPass source).map (·.2.fenced)
  /-- What is visible of a line outside of fences is no fence. -/
  unfenced : ∀ entry ∈ (sourceLines source).zip (firstPass source), entry.2.2.fenced = false →
    fenceMarker entry.2.2.visible = none
  /-- The headings are the lines outside of fences that are headings. -/
  headings : (parseMarkdownStructure source).headings.map Prod.fst
    = ((sourceLines source).zip (firstPass source)).filterMap fun (record, _, view) =>
        if view.fenced then none else headingOf { record with text := view.visible }
  /-- A heading ends at the next of its level or above, or at the end. -/
  ends : ∀ (place : Nat) (heading : Heading) (stop : Nat),
    (parseMarkdownStructure source).headings[place]? = some (heading, stop) →
      stop = ((((parseMarkdownStructure source).headings.drop (place + 1)).find?
        (·.1.level ≤ heading.level)).map (·.1.index)).getD source.length

end Markdown

end SingularityFlow
