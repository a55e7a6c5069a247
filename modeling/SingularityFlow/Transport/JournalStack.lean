/-
# The publication journal is a stack

The stored record is a stack of transactions as long as the operations agree on
what they admit.  A begin that the reader and the clear will accept (`Clearable`)
keeps it sound, level by level (`sound_begin`), an update that leaves the
journal's own members alone changes the innermost transaction only, and no
step reaches under a transaction that it does not end (`above_step`).

A begin that they will refuse later leaves a transaction that can be neither
finished nor begun anew (`not_clearable`): it nests under another lease, as a
publication under the subject lock does inside a draft that was begun without
it, or too deep, or with its parent's identifier.
-/
import SingularityFlow.Transport.PublicationJournal

namespace SingularityFlow

open Ecma

namespace Journal

/-! ## The stack -/

/-- The number of transactions that are stored. -/
def depth : Option Record → Nat
  | none => 0
  | some record => record.frames.length

/-- Frames over what was there. -/
def stack (fs : List Frame) (below : Option Record) : Option Record :=
  fs.foldr (fun f rest => some (.onto f rest)) below

@[simp] theorem frame_onto (f : Frame) (r : Option Record) : (Record.onto f r).frame = f := by
  cases r <;> rfl

@[simp] theorem parentJournal_onto (f : Frame) (r : Option Record) :
    (Record.onto f r).parentJournal = r := by
  cases r <;> rfl

theorem onto_eta (record : Record) : record = .onto record.frame record.parentJournal := by
  cases record <;> rfl

theorem mem_frames_onto {f g : Frame} {r : Option Record} :
    g ∈ (Record.onto f r).frames ↔ g = f ∨ ∃ record, r = some record ∧ g ∈ record.frames := by
  cases r <;> simp [Record.onto, Record.frames]

theorem depth_onto (f : Frame) (r : Option Record) :
    (Record.onto f r).frames.length = depth r + 1 := by
  cases r <;> simp [Record.onto, Record.frames, depth]

theorem frame_mem_frames (record : Record) : record.frame ∈ record.frames := by
  cases record <;> simp [Record.frame, Record.frames]

theorem depth_stack (fs : List Frame) (below : Option Record) :
    depth (stack fs below) = fs.length + depth below := by
  induction fs with
  | nil => simp [stack]
  | cons f fs ih =>
      show (Record.onto f (stack fs below)).frames.length = _
      rw [depth_onto, ih, List.length_cons]
      omega

variable {env : Setting} {held : Option Lock} {b : Begin} {stored : Option Record}

/-! ## What the reader accepts -/

/-- What the reader asks of a frame, apart from its depth. -/
structure Readable (env : Setting) (f : Frame) : Prop where
  kind : f.subject.kind = env.subject.kind
  id : f.subject.id = env.subject.id
  branch : env.subject.branch = none ∨ f.subject.branch = env.subject.branch
  preimage : validateOptional env f.recoveryPreimage = .ok ()

theorem assertFrame_eq_ok_iff {d : Nat} {f : Frame} :
    assertFrame env d f = .ok () ↔ d ≤ 32 ∧ Readable env f := by
  constructor
  · intro h
    obtain ⟨_, hdepth, h⟩ := bind_eq_ok_iff.mp h
    obtain ⟨_, hsubject, h⟩ := bind_eq_ok_iff.mp h
    rw [failIf_eq_ok_iff] at hdepth hsubject
    obtain ⟨hkind, hid, hbranch⟩ := Decidable.not_not.mp hsubject
    exact ⟨Nat.not_lt.mp hdepth, hkind, hid, hbranch, h⟩
  · rintro ⟨hdepth, h⟩
    exact bind_eq_ok_iff.mpr ⟨(), failIf_eq_ok_iff.mpr (Nat.not_lt.mpr hdepth),
      bind_eq_ok_iff.mpr ⟨(), failIf_eq_ok_iff.mpr
        (not_not_intro ⟨h.kind, h.id, h.branch⟩), h.preimage⟩⟩

/-- **The reader accepts a chain of readable frames that is not too deep.** -/
theorem assertJournalSubject_eq_ok_iff {record : Record} {d : Nat} :
    assertJournalSubject env d record = .ok ()
      ↔ d + record.frames.length ≤ 33 ∧ ∀ f ∈ record.frames, Readable env f := by
  induction record generalizing d with
  | outermost f =>
      rw [assertJournalSubject, assertFrame_eq_ok_iff]
      simp [Record.frames]
      omega
  | nested f parent ih =>
      rw [assertJournalSubject, bind_eq_ok_iff]
      simp only [Record.frames, List.length_cons, List.forall_mem_cons]
      constructor
      · rintro ⟨_, hframe, h⟩
        obtain ⟨hlength, hall⟩ := ih.mp h
        exact ⟨by omega, (assertFrame_eq_ok_iff.mp hframe).2, hall⟩
      · rintro ⟨hlength, hframe, hall⟩
        have hpos := List.length_pos_of_mem (frame_mem_frames parent)
        exact ⟨(), assertFrame_eq_ok_iff.mpr ⟨by omega, hframe⟩, ih.mpr ⟨by omega, hall⟩⟩

theorem read_eq_ok_iff {record : Record} {r : Option Record} :
    readPublicationJournal env (some record) = .ok r
      ↔ r = some record ∧ record.frames.length ≤ 33 ∧ ∀ f ∈ record.frames, Readable env f := by
  rw [readPublicationJournal, bind_eq_ok_iff]
  constructor
  · rintro ⟨_, h, hr⟩
    obtain ⟨hlength, hall⟩ := assertJournalSubject_eq_ok_iff.mp h
    exact ⟨(Except.ok.inj hr).symm, by omega, hall⟩
  · rintro ⟨rfl, hlength, hall⟩
    exact ⟨(), assertJournalSubject_eq_ok_iff.mpr ⟨by omega, hall⟩, rfl⟩

/-! ## What is stored along a run -/

/-- The frame is one of this process. -/
def Own (env : Setting) (f : Frame) : Prop :=
  f.owner.pid = env.process.pid ∧ f.owner.processId = env.process.processId

/-- Each parent is one that a clear of its child accepts. -/
inductive Linked (env : Setting) : Record → Prop
  | outermost (f : Frame) : Linked env (.outermost f)
  | nested {f : Frame} {parent : Record} : parentAccepted env f parent.frame = true →
      Linked env parent → Linked env (.nested f parent)

/-- A record of this process that can be read and cleared, level by level. -/
structure Sound (env : Setting) (record : Record) : Prop where
  shallow : record.frames.length ≤ 33
  readable : ∀ f ∈ record.frames, Readable env f
  own : ∀ f ∈ record.frames, Own env f
  linked : Linked env record

/-- What a run finds: nothing, records of another process, or a sound record of its own. -/
def Reached (env : Setting) (stored : Option Record) : Prop :=
  ∀ record, stored = some record → (∀ f ∈ record.frames, ¬ Own env f) ∨ Sound env record

/-- The begin is one that the reader and the clear will accept: where it nests,
there is room for one more parent, the lease is the parent's, and the parent
has an identifier of its own. -/
def Clearable (env : Setting) (held : Option Lock) (b : Begin) (stored : Option Record) : Prop :=
  ∀ record, stored = some record → ownedByCurrentProcess env held record.frame = true →
    record.frames.length ≤ 32
      ∧ record.frame.owner.lockToken = b.lockOwner.map Lock.lockToken
      ∧ record.frame.owner.processToken = b.lockOwner.map Lock.processToken
      ∧ blankId record.frame.transactionId = false
      ∧ record.frame.transactionId ≠ b.transactionId

/-- The update names none of the members that the journal keeps for itself. -/
structure Updates.Plain (updates : Updates) : Prop where
  subject : updates.subject = none
  transactionId : updates.transactionId = none
  owner : updates.owner = none
  recoveryPreimage : updates.recoveryPreimage = none
  parentJournal : updates.parentJournal = none

/-- The condition on a call. -/
def CallAllowed (env : Setting) (stored : Option Record) : Call → Prop
  | .begin held b => Clearable env held b stored
  | .update updates _ _ => updates.Plain
  | .clear _ => True

/-- The calls meet their conditions, each where it is made. -/
def Allowed (env : Setting) : Option Record → List Call → Prop
  | _, [] => True
  | stored, call :: calls => CallAllowed env stored call ∧ Allowed env (step env stored call) calls

/-- What is stored after the calls. -/
def run (env : Setting) (stored : Option Record) (calls : List Call) : Option Record :=
  calls.foldl (step env) stored

theorem own_of_owned {f : Frame} (h : ownedByCurrentProcess env held f = true) : Own env f := by
  simp only [ownedByCurrentProcess, Bool.and_eq_true, beq_iff_eq] at h
  exact h.1

theorem own_newFrame : Own env (newFrame env b) := ⟨rfl, rfl⟩

/-- What a begin has found and what it writes. -/
theorem begin_eq_ok_iff {record : Record} :
    beginPublicationJournal env held b stored = .ok record
      ↔ validateOptional env b.recoveryPreimage = .ok ()
        ∧ readPublicationJournal env stored = .ok stored
        ∧ (∀ existing, stored = some existing →
            ownedByCurrentProcess env held existing.frame = true)
        ∧ record = .onto (newFrame env b) stored := by
  constructor
  · intro h
    obtain ⟨_, hpreimage, hrest⟩ := bind_eq_ok_iff.mp h
    obtain ⟨existing, hread, hrest⟩ := bind_eq_ok_iff.mp hrest
    obtain ⟨_, howned, hrecord⟩ := bind_eq_ok_iff.mp hrest
    have hsame : existing = stored := by
      cases stored with
      | none => exact (Except.ok.inj hread).symm
      | some record => exact (read_eq_ok_iff.mp hread).1
    rw [hsame] at hread howned hrecord
    refine ⟨hpreimage, hread, ?_, (Except.ok.inj hrecord).symm⟩
    rintro record rfl
    simpa using failIf_eq_ok_iff.mp howned
  · rintro ⟨hpreimage, hread, howned, rfl⟩
    refine bind_eq_ok_iff.mpr ⟨(), hpreimage, bind_eq_ok_iff.mpr ⟨stored, hread,
      bind_eq_ok_iff.mpr ⟨(), failIf_eq_ok_iff.mpr ?_, rfl⟩⟩⟩
    cases stored with
    | none => simp
    | some record => simpa using howned record rfl

theorem readable_newFrame (h : validateOptional env b.recoveryPreimage = .ok ()) :
    Readable env (newFrame env b) := ⟨rfl, rfl, .inr rfl, h⟩

/-- **A begin that can be cleared keeps the stack sound.** -/
theorem sound_begin {record : Record} (hreached : Reached env stored)
    (hclear : Clearable env held b stored)
    (h : beginPublicationJournal env held b stored = .ok record) : Sound env record := by
  obtain ⟨hpreimage, -, howned, rfl⟩ := begin_eq_ok_iff.mp h
  cases stored with
  | none =>
      refine ⟨by simp [Record.onto, Record.frames], ?_, ?_, .outermost _⟩ <;>
        intro f hf <;> obtain rfl := List.mem_singleton.mp hf
      · exact readable_newFrame hpreimage
      · exact own_newFrame
  | some parent =>
      have hown := howned parent rfl
      have hsound : Sound env parent := (hreached parent rfl).resolve_left fun hforeign =>
        hforeign _ (frame_mem_frames parent) (own_of_owned hown)
      obtain ⟨hroom, hlock, htoken, hid, hother⟩ := hclear parent rfl hown
      have hsubject := hsound.readable _ (frame_mem_frames parent)
      refine ⟨by rw [depth_onto, depth]; omega, ?_, ?_, .nested ?_ hsound.linked⟩
      · intro f hf
        rcases mem_frames_onto.mp hf with rfl | ⟨record, hrecord, hf⟩
        · exact readable_newFrame hpreimage
        · obtain rfl := Option.some.inj hrecord
          exact hsound.readable f hf
      · intro f hf
        rcases mem_frames_onto.mp hf with rfl | ⟨record, hrecord, hf⟩
        · exact own_newFrame
        · obtain rfl := Option.some.inj hrecord
          exact hsound.own f hf
      · simp [parentAccepted, hsubject.kind, hsubject.id, newFrame, hlock, htoken, hid, hother]

/-- What a plain update leaves of a frame. -/
structure SameHead (f g : Frame) : Prop where
  subject : g.subject = f.subject
  transactionId : g.transactionId = f.transactionId
  owner : g.owner = f.owner
  recoveryPreimage : g.recoveryPreimage = f.recoveryPreimage

theorem SameHead.trans {f g h : Frame} (hfg : SameHead f g) (hgh : SameHead g h) : SameHead f h :=
  ⟨hgh.1.trans hfg.1, hgh.2.trans hfg.2, hgh.3.trans hfg.3, hgh.4.trans hfg.4⟩

/-- A plain update changes data of the innermost transaction only. -/
theorem apply_plain {updates : Updates} (h : updates.Plain) (now : Text) (record : Record) :
    ∃ g, SameHead record.frame g ∧ updates.apply now record = .onto g record.parentJournal := by
  refine ⟨_, ?_, by rw [Updates.apply, h.parentJournal]; rfl⟩
  exact ⟨by rw [h.subject]; rfl, by rw [h.transactionId]; rfl, by rw [h.owner]; rfl,
    by rw [h.recoveryPreimage]; rfl⟩

theorem SameHead.readable {f g : Frame} (h : SameHead f g) (hf : Readable env f) :
    Readable env g :=
  ⟨h.subject ▸ hf.kind, h.subject ▸ hf.id, h.subject ▸ hf.branch, h.recoveryPreimage ▸ hf.preimage⟩

theorem SameHead.own {f g : Frame} (h : SameHead f g) : Own env g ↔ Own env f := by
  rw [Own, Own, h.owner]

/-- The head of a record can be replaced by one that says the same. -/
theorem sound_sameHead {record : Record} {g : Frame} (h : SameHead record.frame g)
    (hsound : Sound env record) : Sound env (.onto g record.parentJournal) := by
  have hmem : ∀ f ∈ (Record.onto g record.parentJournal).frames, f = g ∨ f ∈ record.frames := by
    intro f hf
    refine (mem_frames_onto.mp hf).imp id ?_
    rintro ⟨parent, hparent, hf⟩
    rw [onto_eta record, mem_frames_onto]
    exact .inr ⟨parent, hparent, hf⟩
  have hhead := frame_mem_frames record
  refine ⟨?_, ?_, ?_, ?_⟩
  · have hlength := hsound.shallow
    rw [onto_eta record, depth_onto] at hlength
    rwa [depth_onto]
  · intro f hf
    rcases hmem f hf with rfl | hf
    · exact h.readable (hsound.readable _ hhead)
    · exact hsound.readable f hf
  · intro f hf
    rcases hmem f hf with rfl | hf
    · exact h.own.mpr (hsound.own _ hhead)
    · exact hsound.own f hf
  · cases record with
    | outermost f => exact .outermost g
    | nested f parent =>
        cases hsound.linked with
        | nested hlink hparent =>
            refine .nested ?_ hparent
            have h' : SameHead f g := h
            simpa only [parentAccepted, h'.owner, h'.transactionId] using hlink

/-- What an update writes. -/
theorem update_eq_ok_some {updates : Updates} {now : Text} {transactionId : Option Text}
    {record : Record}
    (h : updatePublicationJournal env updates now transactionId stored = .ok (some record)) :
    ∃ current, stored = some current ∧ record = updates.apply now current
      ∧ otherTransaction transactionId current.frame = false := by
  obtain ⟨existing, hread, h⟩ := bind_eq_ok_iff.mp h
  cases stored with
  | none =>
      obtain rfl := Except.ok.inj hread
      cases Except.ok.inj h
  | some current =>
      obtain ⟨rfl, -⟩ := read_eq_ok_iff.mp hread
      have h := Except.ok.inj h
      dsimp only at h
      split at h
      · cases h
      · next hsame => exact ⟨current, rfl, (Option.some.inj h).symm, by simpa using hsame⟩

/-- What a clear leaves: what was there, or the parent. -/
theorem clear_eq_ok {transactionId : Option Text} {cleared : Bool} {after : Option Record}
    (h : clearPublicationJournal env transactionId stored = .ok (cleared, after)) :
    after = stored ∨ ∃ record, stored = some record ∧ after = record.parentJournal := by
  obtain ⟨existing, hread, h⟩ := bind_eq_ok_iff.mp h
  cases stored with
  | none =>
      obtain rfl := Except.ok.inj hread
      exact .inl (congrArg Prod.snd (Except.ok.inj h)).symm
  | some record =>
      obtain ⟨rfl, -⟩ := read_eq_ok_iff.mp hread
      dsimp only at h
      split at h
      · exact .inl (congrArg Prod.snd (Except.ok.inj h)).symm
      · refine .inr ⟨record, rfl, ?_⟩
        split at h
        · next hparent => rw [hparent]; exact (congrArg Prod.snd (Except.ok.inj h)).symm
        · next parent hparent =>
          rw [hparent]
          split at h
          · exact (congrArg Prod.snd (Except.ok.inj h)).symm
          · cases h

/-- **One step keeps what is stored in order.** -/
theorem reached_step {call : Call} (hreached : Reached env stored)
    (hallowed : CallAllowed env stored call) : Reached env (step env stored call) := by
  cases call with
  | «begin» held b =>
      rw [step]
      split
      · next record h =>
        rintro _ ⟨⟩
        exact .inr (sound_begin hreached hallowed h)
      · exact hreached
  | update updates now transactionId =>
      rw [step]
      split
      · next record h =>
        obtain ⟨current, rfl, rfl, -⟩ := update_eq_ok_some h
        obtain ⟨g, hsame, happly⟩ := apply_plain hallowed now current
        rintro _ ⟨⟩
        rw [happly]
        refine (hreached current rfl).imp (fun hforeign f hf => ?_) (sound_sameHead hsame)
        rcases mem_frames_onto.mp hf with rfl | ⟨parent, hparent, hf⟩
        · exact fun hown => hforeign _ (frame_mem_frames current) (hsame.own.mp hown)
        · refine hforeign f ?_
          rw [onto_eta current, mem_frames_onto]
          exact .inr ⟨parent, hparent, hf⟩
      · exact hreached
  | clear transactionId =>
      rw [step]
      split
      · next after h =>
        rcases clear_eq_ok h with rfl | ⟨record, rfl, rfl⟩
        · exact hreached
        · intro parent hparent
          cases record with
          | outermost f => cases hparent
          | nested f parent' =>
              obtain rfl := Option.some.inj hparent
              refine (hreached _ rfl).imp (fun hforeign g hg => hforeign g (.tail _ hg)) ?_
              intro hsound
              have hlength := hsound.shallow
              rw [Record.frames, List.length_cons] at hlength
              refine ⟨by omega, fun g hg => hsound.readable g (.tail _ hg),
                fun g hg => hsound.own g (.tail _ hg), ?_⟩
              cases hsound.linked with
              | nested _ hlinked => exact hlinked
      · exact hreached

/-- **Along a run what is stored stays in order.** -/
theorem reached_run : ∀ {calls : List Call} {stored : Option Record}, Reached env stored →
    Allowed env stored calls → Reached env (run env stored calls)
  | [], _, hreached, _ => hreached
  | call :: calls, stored, hreached, hallowed => by
      show Reached env (run env (step env stored call) calls)
      exact reached_run (reached_step hreached hallowed.1) hallowed.2

/-! ## What stands under a transaction -/

/-- Transactions over what was there, the outermost of them the given one. -/
def Above (below : Option Record) (f : Frame) (stored : Option Record) : Prop :=
  ∃ fs g, SameHead f g ∧ stored = stack (fs ++ [g]) below

/-- **A step cannot reach under a transaction that it does not end.** -/
theorem above_step {below : Option Record} {f : Frame} {call : Call}
    (habove : Above below f stored) (hallowed : CallAllowed env stored call)
    (hdeep : depth below < depth (step env stored call)) :
    Above below f (step env stored call) := by
  obtain ⟨fs, g, hsame, rfl⟩ := habove
  cases call with
  | «begin» held b =>
      rw [step]
      split
      · next record h =>
        obtain ⟨-, -, -, rfl⟩ := begin_eq_ok_iff.mp h
        exact ⟨newFrame env b :: fs, g, hsame, rfl⟩
      · exact ⟨fs, g, hsame, rfl⟩
  | update updates now transactionId =>
      rw [step]
      split
      · next record h =>
        obtain ⟨current, hcurrent, rfl, -⟩ := update_eq_ok_some h
        obtain ⟨k, hk, happly⟩ := apply_plain hallowed now current
        rw [happly]
        cases fs with
        | nil =>
            obtain rfl := Option.some.inj hcurrent
            rw [frame_onto] at hk
            exact ⟨[], k, hsame.trans hk, by rw [parentJournal_onto]; rfl⟩
        | cons top fs =>
            obtain rfl := Option.some.inj hcurrent
            exact ⟨k :: fs, g, hsame, by rw [parentJournal_onto]; rfl⟩
      · exact ⟨fs, g, hsame, rfl⟩
  | clear transactionId =>
      rw [step] at hdeep ⊢
      split
      · next after h =>
        rw [h] at hdeep
        rcases clear_eq_ok h with rfl | ⟨record, hrecord, rfl⟩
        · exact ⟨fs, g, hsame, rfl⟩
        · cases fs with
          | nil =>
              obtain rfl := Option.some.inj hrecord
              simp only [parentJournal_onto] at hdeep
              exact absurd hdeep (lt_irrefl _)
          | cons top fs =>
              obtain rfl := Option.some.inj hrecord
              exact ⟨fs, g, hsame, by rw [parentJournal_onto]; rfl⟩
      · exact ⟨fs, g, hsame, rfl⟩

theorem above_run {below : Option Record} {f : Frame} : ∀ {calls : List Call}
    {stored : Option Record}, Above below f stored → Allowed env stored calls →
      (∀ k ≤ calls.length, depth below < depth (run env stored (calls.take k))) →
      Above below f (run env stored calls)
  | [], _, habove, _, _ => habove
  | call :: calls, stored, habove, hallowed, hdeep => by
      show Above below f (run env (step env stored call) calls)
      refine above_run (above_step habove hallowed.1 (hdeep 1 (by simp))) hallowed.2 fun k hk => ?_
      exact hdeep (k + 1) (by simpa using hk)

/-! ## The journal is a stack -/

/-- A clear by the identifier of the innermost transaction ends that transaction. -/
theorem clear_sound {g : Frame} {below : Option Record}
    (hsound : Sound env (.onto g below)) :
    clearPublicationJournal env g.transactionId (some (.onto g below)) = .ok (true, below) := by
  have hread := read_eq_ok_iff.mpr ⟨rfl, hsound.shallow, hsound.readable⟩
  have hsame : otherTransaction g.transactionId g = false := by
    cases h : g.transactionId <;> simp [otherTransaction, h]
  rw [clearPublicationJournal, hread]
  show (if otherTransaction g.transactionId (Record.onto g below).frame then _ else _) = _
  rw [frame_onto, hsame, if_neg Bool.false_ne_true]
  cases below with
  | none => rfl
  | some parent =>
      cases hsound.linked with
      | nested hlink _ => exact if_pos hlink

/-- A begin that is not clearable leaves a record that cannot be read or not be cleared. -/
theorem not_clearable {record : Record} (hreached : Reached env stored)
    (h : beginPublicationJournal env held b stored = .ok record)
    (hclear : ¬ Clearable env held b stored) :
    ¬ (readPublicationJournal env (some record) = .ok (some record)
      ∧ clearPublicationJournal env b.transactionId (some record) = .ok (true, stored)) := by
  rintro ⟨hread, hcleared⟩
  refine hclear ?_
  rintro parent rfl hown
  obtain ⟨-, -, -, rfl⟩ := begin_eq_ok_iff.mp h
  obtain ⟨-, hlength, -⟩ := read_eq_ok_iff.mp hread
  have hsame : otherTransaction b.transactionId (newFrame env b) = false := by
    cases h : b.transactionId <;> simp [otherTransaction, newFrame, h]
  rw [clearPublicationJournal, hread] at hcleared
  change (if otherTransaction b.transactionId (newFrame env b) then _
    else if parentAccepted env (newFrame env b) parent.frame then _ else _) = _ at hcleared
  rw [hsame, if_neg Bool.false_ne_true] at hcleared
  split at hcleared
  · next hlink =>
    simp only [parentAccepted, newFrame, Bool.and_eq_true, beq_iff_eq, Bool.not_eq_true',
      bne_iff_ne] at hlink
    obtain ⟨⟨⟨-, hlock, htoken⟩, hid⟩, hother⟩ := hlink
    rw [depth_onto, depth] at hlength
    exact ⟨by omega, hlock, htoken, hid, hother⟩
  · cases hcleared

/-- **The journal is a stack**, in every run whose begins the clear will accept
and whose updates leave the journal's own members alone: a begin leaves what
can be read, and when all that came after it has ended, a clear by its
identifier restores what was stored before.  A begin of any other kind leaves
what cannot be read or not be cleared.  An update or a clear of another
transaction changes nothing, and a begin changes no record of another owner. -/
theorem journal_faithful (env : Setting) (first : Option Record)
    (hfirst : ∀ record, first = some record → ∀ f ∈ record.frames, ¬ Own env f)
    (calls : List Call) (hcalls : Allowed env first calls) (stored : Option Record)
    (hstored : stored = run env first calls) :
    (∀ held b record, Clearable env held b stored →
      beginPublicationJournal env held b stored = .ok record →
      readPublicationJournal env (some record) = .ok (some record)
        ∧ ∀ later, Allowed env (some record) later →
          (∀ k ≤ later.length, depth stored < depth (run env (some record) (later.take k))) →
          depth (run env (some record) later) = depth stored + 1 →
          readPublicationJournal env (run env (some record) later)
              = .ok (run env (some record) later)
            ∧ clearPublicationJournal env b.transactionId (run env (some record) later)
              = .ok (true, stored))
    ∧ (∀ held b record, beginPublicationJournal env held b stored = .ok record →
        ¬ Clearable env held b stored →
        ¬ (readPublicationJournal env (some record) = .ok (some record)
          ∧ clearPublicationJournal env b.transactionId (some record) = .ok (true, stored)))
    ∧ (∀ record updates now id, stored = some record → id ≠ [] →
        record.frame.transactionId ≠ some id →
        step env stored (.update updates now (some id)) = stored
          ∧ step env stored (.clear (some id)) = stored)
    ∧ ∀ record held b, stored = some record →
        ownedByCurrentProcess env held record.frame = false →
        step env stored (.begin held b) = stored := by
  have hreached : Reached env stored := by
    rw [hstored]
    exact reached_run (fun record h => .inl (hfirst record h)) hcalls
  refine ⟨fun held b record hclear h => ?_, fun held b record h hclear =>
    not_clearable hreached h hclear, ?_, ?_⟩
  · have hsound := sound_begin hreached hclear h
    have hrecord : Reached env (some record) := by
      rintro _ ⟨⟩
      exact .inr hsound
    refine ⟨read_eq_ok_iff.mpr ⟨rfl, hsound.shallow, hsound.readable⟩, ?_⟩
    intro later hlater hdeep hend
    obtain ⟨-, -, -, rfl⟩ := begin_eq_ok_iff.mp h
    have habove : Above stored (newFrame env b) (some (.onto (newFrame env b) stored)) :=
      ⟨[], newFrame env b, ⟨rfl, rfl, rfl, rfl⟩, rfl⟩
    obtain ⟨fs, g, hsame, htop⟩ := above_run habove hlater hdeep
    have hbare : fs = [] := by
      rw [htop, depth_stack, List.length_append, List.length_singleton] at hend
      exact List.length_eq_zero_iff.mp (by omega)
    subst hbare
    have htop' : run env (some (.onto (newFrame env b) stored)) later = some (.onto g stored) := htop
    have hfinal : Sound env (.onto g stored) := by
      refine (reached_run hrecord hlater _ htop').resolve_left fun hforeign => ?_
      exact hforeign g (mem_frames_onto.mpr (.inl rfl)) (hsame.own.mpr own_newFrame)
    rw [htop']
    refine ⟨read_eq_ok_iff.mpr ⟨rfl, hfinal.shallow, hfinal.readable⟩, ?_⟩
    have hid : b.transactionId = g.transactionId := hsame.transactionId.symm
    rw [hid]
    exact clear_sound hfinal
  · rintro record updates now id rfl hid hother
    have hskip : otherTransaction (some id) record.frame = true := by
      simp [otherTransaction, hid, hother]
    constructor
    · rw [step]
      split
      · next record' h =>
        obtain ⟨current, hcurrent, -, hsame⟩ := update_eq_ok_some h
        obtain rfl := Option.some.inj hcurrent
        rw [hskip] at hsame
        cases hsame
      · rfl
    · rw [step]
      split
      · next after h =>
        obtain ⟨existing, hread, h⟩ := bind_eq_ok_iff.mp h
        obtain ⟨rfl, -⟩ := read_eq_ok_iff.mp hread
        dsimp only at h
        rw [if_pos hskip] at h
        exact (congrArg Prod.snd (Except.ok.inj h)).symm
      · rfl
  · rintro record held b rfl hforeign
    rw [step]
    split
    · next record' h =>
      obtain ⟨-, -, howned, -⟩ := begin_eq_ok_iff.mp h
      rw [howned record rfl] at hforeign
      cases hforeign
    · rfl

/-- A story of one process, without preimages. -/
def sampleSetting : Setting :=
  ⟨⟨7, js "process"⟩, ⟨js "story", js "S-1", none⟩, fun _ _ => .ok ()⟩

/-- A draft that is begun without a lock. -/
def draft : Begin := ⟨some (js "draft"), none, none, []⟩

/-- A publication inside it. -/
def publication : Begin := ⟨some (js "publication"), none, none, []⟩

def storyLock : Lock := ⟨js "host", js "process-token", js "lock-token"⟩

/-- The draft's record, as the begin stores it. -/
def draftRecord : Record := .outermost (newFrame sampleSetting draft)

theorem run_draft : run sampleSetting none [.begin none draft] = some draftRecord := rfl

/-- A publication without a lock inside a draft without one is cleared. -/
theorem journal_faithful_draft :
    clearPublicationJournal sampleSetting (some (js "publication"))
        (some (.nested (newFrame sampleSetting publication) draftRecord))
      = .ok (true, some draftRecord) := by
  have hclear : Clearable sampleSetting none publication (some draftRecord) := by
    intro record hrecord _
    obtain rfl := Option.some.inj hrecord
    exact ⟨by decide, rfl, rfl, by decide, by decide⟩
  have hallowed : Allowed sampleSetting none [.begin none draft] :=
    ⟨fun _ h => absurd h (by simp), trivial⟩
  have h := (journal_faithful sampleSetting none (fun _ h => absurd h (by simp))
    [.begin none draft] hallowed _ run_draft.symm).1 none publication _ hclear rfl
  refine (h.2 [] trivial (fun k hk => ?_) (by decide)).2
  obtain rfl : k = 0 := by simpa using hk
  decide

/-- **A publication under a lock inside a draft without one cannot be cleared.** -/
theorem clear_refuses_nested : ¬ ∀ (env : Setting) (calls : List Call) (held : Option Lock)
    (b : Begin) (record : Record),
    beginPublicationJournal env held b (run env none calls) = .ok record →
    clearPublicationJournal env b.transactionId (some record) = .ok (true, run env none calls) := by
  intro h
  have hclear := h sampleSetting [.begin none draft] (some storyLock)
    { publication with lockOwner := some storyLock } _ rfl
  have hrefused : clearPublicationJournal sampleSetting (some (js "publication"))
      (some (.nested (newFrame sampleSetting { publication with lockOwner := some storyLock })
        draftRecord)) = .error (parentInvalid sampleSetting) := rfl
  exact absurd (hrefused.symm.trans hclear) (by simp)

end Journal

end SingularityFlow
