/-
# What concurrent appends keep of the ledger

A commit that the appends build is a chain of entries over an empty root
(`Valid`), so what its files say can be read off that chain: the head counts
the entries, no key occurs twice, and an index names an entry of the chain.

Whether entries stay is a question about the tip.  An update that takes effect
replaces the value it was compared with, so nothing is lost as long as that
value is the commit the new one was built on (`BaseCompared`).  The atomic
attempt compares with its base; `appendOnce` reads what it compares with and
what it builds on at different moments.  `run_ledgerKept` is the result for
every run in which the two agree whenever an update takes effect.
-/
import SingularityFlow.Ledger.Append

namespace SingularityFlow

open Ecma Ecma.Value

namespace Ledger

section Entry

variable (config : Config) (r : Request) (key : IdempotencyKey) (head : Head) (now : Text)

theorem ledgerEntry_key :
    (ledgerEntry config r key head now).member? (js "idempotencyKey") = some (.str key.value) := by
  rw [ledgerEntry, member?, lookup_define_of_ne (by decide), lookup_define_of_ne (by decide),
    lookup_define_self]

theorem ledgerEntry_parent :
    (ledgerEntry config r key head now).member? (js "parentEntryHash")
      = some (orNull head.entryHash) := by
  rw [ledgerEntry, member?, lookup_define_self]

end Entry

/-! ## Commits that appends build -/

/-- A root without entries, and what was appended to it one by one. -/
inductive Valid (config : Config) : Commit → Prop
  | root (now : Text) : Valid config (initialRoot now)
  | child {base : Commit} {r : Request} {key : IdempotencyKey} (now : Text) : Valid config base →
      r.key = .ok key → mapGet base.tree.idempotency key.hash = none →
      Valid config (commitLedgerEntry config r key base now)

/-- `b` is `a` or was built on it. -/
inductive Below (a : Commit) : Commit → Prop
  | refl : Below a a
  | child {b : Commit} (t : Tree) : Below a b → Below a (.child b t)

/-- The entry holds this key. -/
def Holds (entry : Value) (value : Text) : Prop :=
  entry.member? (js "idempotencyKey") = some (.str value)

instance (entry : Value) (value : Text) : Decidable (Holds entry value) :=
  inferInstanceAs (Decidable (_ = _))

theorem Holds.unique {entry : Value} {a b : Text} (ha : Holds entry a) (hb : Holds entry b) : a = b :=
  Value.str.inj (Option.some.inj (ha.symm.trans hb))

section Commits

variable {config : Config} {c : Commit}

@[simp] theorem tree_commitLedgerEntry (r : Request) (key : IdempotencyKey) (base : Commit)
    (now : Text) :
    (commitLedgerEntry config r key base now).tree = ledgerEntryFiles config r key base.tree now :=
  rfl

theorem log_commitLedgerEntry (r : Request) (key : IdempotencyKey) (base : Commit) (now : Text) :
    (commitLedgerEntry config r key base now).log
      = ledgerEntry config r key base.tree.head now :: base.log := by
  simp [commitLedgerEntry, Commit.log, ledgerEntryFiles]

theorem Below.log_subset {a b : Commit} (h : Below a b) : a.log ⊆ b.log := by
  induction h with
  | refl => exact fun _ => id
  | child t _ ih => exact fun e he => List.mem_append_right _ (ih he)

theorem Below.trans {a b d : Commit} (hab : Below a b) (hbd : Below b d) : Below a d := by
  induction hbd with
  | refl => exact hab
  | child t _ ih => exact .child t ih

/-- The head counts the entries. -/
theorem Valid.sequence (h : Valid config c) : c.tree.head.sequence = c.log.length := by
  induction h with
  | root now => rfl
  | child now _ _ _ ih =>
      rw [log_commitLedgerEntry, List.length_cons, ← ih]
      rfl

/-- Every entry holds a key, and the key has an index. -/
theorem Valid.indexed (h : Valid config c) {e : Value} (he : e ∈ c.log) :
    ∃ value, Holds e value ∧ (mapGet c.tree.idempotency (sha256 value)).isSome := by
  induction h with
  | root now => cases he
  | @child base r key now hbase hkey _ ih =>
      rw [log_commitLedgerEntry] at he
      have hhash := ledgerIdempotencyKey_hash hkey
      rcases List.mem_cons.mp he with rfl | he
      · refine ⟨key.value, ledgerEntry_key .., ?_⟩
        rw [← hhash]
        simp [ledgerEntryFiles]
      · obtain ⟨value, hholds, hindex⟩ := ih he
        refine ⟨value, hholds, ?_⟩
        by_cases heq : sha256 value = key.hash
        · simp [ledgerEntryFiles, heq]
        · simpa [ledgerEntryFiles, mapGet_mapSet_of_ne heq] using hindex

/-- An index names an entry whose key has this hash. -/
theorem Valid.index_names (h : Valid config c) {hash : Text} {index : IndexRecord}
    (hindex : mapGet c.tree.idempotency hash = some index) :
    ∃ e ∈ c.log, entryHash e = index.entryHash ∧ ∃ value, Holds e value ∧ sha256 value = hash := by
  induction h generalizing index with
  | root now => cases hindex
  | @child base r key now hbase hkey _ ih =>
      rw [log_commitLedgerEntry]
      have hhash := ledgerIdempotencyKey_hash hkey
      by_cases heq : hash = key.hash
      · subst heq
        simp only [tree_commitLedgerEntry, ledgerEntryFiles, mapGet_mapSet_self,
          Option.some.injEq] at hindex
        subst hindex
        exact ⟨_, List.mem_cons_self, rfl, key.value, ledgerEntry_key .., hhash.symm⟩
      · simp only [tree_commitLedgerEntry, ledgerEntryFiles, mapGet_mapSet_of_ne heq] at hindex
        obtain ⟨e, he, hrest⟩ := ih hindex
        exact ⟨e, List.mem_cons_of_mem _ he, hrest⟩

/-- No key is recorded twice. -/
theorem Valid.once (h : Valid config c) (value : Text) :
    c.log.countP (fun e => Holds e value) ≤ 1 := by
  induction h with
  | root now => exact Nat.zero_le _
  | @child base r key now hbase hkey hfresh ih =>
      rw [log_commitLedgerEntry, List.countP_cons]
      have hholds := ledgerEntry_key config r key base.tree.head now
      by_cases hv : value = key.value
      · -- the key is new, so no earlier entry holds it
        have hzero : base.log.countP (fun e => Holds e value) = 0 := by
          refine List.countP_eq_zero.mpr fun e he hev => ?_
          obtain ⟨value', hvalue', hindex⟩ := hbase.indexed he
          obtain rfl := (of_decide_eq_true hev).unique hvalue'
          rw [hv, ← ledgerIdempotencyKey_hash hkey, hfresh] at hindex
          cases hindex
        rw [hzero, Nat.zero_add]
        split <;> omega
      · rw [if_neg fun h => hv ((of_decide_eq_true h).unique hholds)]
        exact ih

/-- The walk along parent hashes through the entry files. -/
inductive Chain (entries : List (Text × Value)) : Value → List Value → Prop
  | nil : Chain entries .null []
  | entry {hash : Text} {e : Value} {rest : List Value} {parent : Value} :
      mapGet entries hash = some e → e.member? (js "parentEntryHash") = some parent →
      Chain entries parent rest → Chain entries (.str hash) (e :: rest)

theorem Chain.mono {entries entries' : List (Text × Value)} {cursor : Value} {chain : List Value}
    (h : Chain entries cursor chain)
    (hmono : ∀ e ∈ chain, mapGet entries (entryHash e) = some e → mapGet entries' (entryHash e) = some e)
    (hnamed : ∀ hash e, mapGet entries hash = some e → entryHash e = hash) :
    Chain entries' cursor chain := by
  induction h with
  | nil => exact .nil
  | entry he hparent _ ih =>
      obtain rfl := hnamed _ _ he
      exact .entry (hmono _ List.mem_cons_self he) hparent
        (ih fun e hmem => hmono e (List.mem_cons_of_mem _ hmem))

/-- A file of entries holds, under a hash, an entry of this hash. -/
theorem Valid.named (h : Valid config c) {hash : Text} {e : Value}
    (he : mapGet c.tree.entries hash = some e) : entryHash e = hash := by
  induction h with
  | root now => cases he
  | @child base r key now _ _ _ ih =>
      simp only [tree_commitLedgerEntry, ledgerEntryFiles] at he
      by_cases heq : hash = entryHash (ledgerEntry config r key base.tree.head now)
      · subst heq
        rw [mapGet_mapSet_self] at he
        rw [← Option.some.inj he]
      · rw [mapGet_mapSet_of_ne heq] at he
        exact ih he

/-- Unless two different entries have one hash, the entries of the chain are
those that the head leads to. -/
theorem Valid.chain (h : Valid config c)
    (hash_inj : ∀ e ∈ c.log, ∀ e' ∈ c.log, entryHash e = entryHash e' → e = e') :
    Chain c.tree.entries (orNull c.tree.head.entryHash) c.log := by
  induction h with
  | root now => exact .nil
  | @child base r key now hbase _ _ ih =>
      rw [log_commitLedgerEntry] at hash_inj ⊢
      have hrest := ih fun e he e' he' =>
        hash_inj e (List.mem_cons_of_mem _ he) e' (List.mem_cons_of_mem _ he')
      refine .entry (mapGet_mapSet_self ..) (ledgerEntry_parent ..)
        (hrest.mono (fun e he hget => ?_) fun hash e => hbase.named)
      by_cases heq : entryHash e = entryHash (ledgerEntry config r key base.tree.head now)
      · obtain rfl := hash_inj e (List.mem_cons_of_mem _ he) _ List.mem_cons_self heq
        exact mapGet_mapSet_self ..
      · exact (mapGet_mapSet_of_ne heq).trans hget

end Commits

/-! ## What stays when the tip advances -/

/-- The tip stays, or a commit built on it takes its place. -/
def Advances (t t' : Option Commit) : Prop :=
  t' = t ∨ ∃ c, t' = some c ∧ ∀ b, t = some b → c.base? = some b

/-- An empty root, or something the tip was built on. -/
structure Settled (config : Config) (t : Option Commit) (c : Commit) : Prop where
  valid : Valid config c
  placed : (∃ now, c = initialRoot now) ∨ ∃ b, t = some b ∧ Below c b

/-- The new commit that a request has on a base, and what is returned for it. -/
def Built (config : Config) (r : Request) (base commit : Commit) (result : Appended) : Prop :=
  ∃ key now, r.key = .ok key ∧ mapGet base.tree.idempotency key.hash = none
    ∧ commit = commitLedgerEntry config r key base now ∧ result = appended r commit

/-- What is returned names an entry behind the tip, one recorded under the key
of the request. -/
def Kept (r : Request) (t : Option Commit) (result : Appended) : Prop :=
  ∃ key b, r.key = .ok key ∧ t = some b ∧ ∃ e ∈ b.log, entryHash e = result.entryHash
    ∧ ∃ value, Holds e value ∧ sha256 value = key.hash

section Advance

variable {config : Config} {r : Request} {t t' : Option Commit} {base commit c : Commit}
  {result : Appended}

theorem Below.of_base (h : c.base? = some base) : Below base c := by
  cases c with
  | root tree => cases h
  | child b tree =>
      obtain rfl := Option.some.inj h
      exact .child tree .refl

theorem Settled.mono (h : Settled config t c) (ha : Advances t t') : Settled config t' c := by
  refine ⟨h.valid, h.placed.imp_right ?_⟩
  rintro ⟨b, rfl, hb⟩
  rcases ha with rfl | ⟨d, rfl, hd⟩
  · exact ⟨b, rfl, hb⟩
  · exact ⟨d, rfl, hb.trans (.of_base (hd b rfl))⟩

theorem Settled.of_tip (h : Valid config c) (ht : t = some c) : Settled config t c :=
  ⟨h, Or.inr ⟨c, ht, .refl⟩⟩

theorem Settled.of_root {now : Text} (h : c = initialRoot now) : Settled config t c :=
  ⟨h ▸ .root now, Or.inl ⟨now, h⟩⟩

theorem Kept.mono (h : Kept r t result) (ha : Advances t t') : Kept r t' result := by
  obtain ⟨key, b, hkey, rfl, e, he, hrest⟩ := h
  rcases ha with rfl | ⟨d, rfl, hd⟩
  · exact ⟨key, b, hkey, rfl, e, he, hrest⟩
  · exact ⟨key, d, hkey, rfl, e, (Below.of_base (hd b rfl)).log_subset he, hrest⟩

theorem Built.valid (h : Built config r base commit result) (hbase : Valid config base) :
    Valid config commit := by
  obtain ⟨key, now, hkey, hnew, rfl, -⟩ := h
  exact .child now hbase hkey hnew

theorem Built.base_eq (h : Built config r base commit result) : commit.base? = some base := by
  obtain ⟨key, now, -, -, rfl, -⟩ := h
  rfl

/-- An append whose commit is the tip is kept. -/
theorem Built.kept (h : Built config r base commit result) (ht : t = some commit) :
    Kept r t result := by
  obtain ⟨key, now, hkey, hnew, rfl, rfl⟩ := h
  refine ⟨key, _, hkey, ht, ledgerEntry config r key base.tree.head now, ?_, rfl, key.value,
    ledgerEntry_key .., (ledgerIdempotencyKey_hash hkey).symm⟩
  rw [log_commitLedgerEntry]
  exact List.mem_cons_self

/-- So is one that found its key recorded in its base. -/
theorem Settled.kept (h : Settled config t base) {key : IdempotencyKey} (hkey : r.key = .ok key)
    {index : IndexRecord} (hindex : mapGet base.tree.idempotency key.hash = some index)
    (hresult : result.entryHash = index.entryHash) : Kept r t result := by
  rcases h.placed with ⟨now, rfl⟩ | ⟨b, ht, hb⟩
  · cases hindex
  · obtain ⟨e, he, hhash, hvalue⟩ := h.valid.index_names hindex
    exact ⟨key, b, hkey, ht, e, hb.log_subset he, hhash.trans hresult.symm, hvalue⟩

end Advance

/-! ## The invariant -/

section World

variable {Client Repo : Type} (setting : Setting Client Repo)

/-- What an update of the local ref carries. -/
def SwapOk (r : Request) (t : Option Commit) (swap : Swap) (expected : Option Commit)
    (commit : Commit) : Prop :=
  match swap with
  | .root _ => expected = none ∧ ∃ now, commit = initialRoot now
  | .join _ => setting.authority = none ∧ Settled setting.config t commit
  | .append _ base result => setting.authority ≠ none ∧ Settled setting.config t base
      ∧ Built setting.config r base commit result

/-- What the values that a process holds have to do with the tip. -/
def PhaseOk (r : Request) (t : Option Commit) : Phase → Prop
  | .observing a | .atomicPush a | .reconciling a =>
      setting.authority = none ∧ Settled setting.config t a.lease
        ∧ Built setting.config r a.lease a.commit a.result
  | .recordTracking a | .recordLocal a =>
      setting.authority = none ∧ Settled setting.config t a.commit ∧ Kept r t a.result
  | .refresh f => f.root ≠ none → setting.authority = none
  | .observe _ _ | .fetch _ _ _ => setting.authority = none
  | .track _ _ fetched => setting.authority = none ∧ Settled setting.config t fetched
  | .rootPush _ root | .rootTracking _ root =>
      setting.authority = none ∧ ∃ now, root = initialRoot now
  | .joining _ _ => setting.authority = none
  | .build _ _ base => Settled setting.config t base
  | .publish _ _ base commit result =>
      Settled setting.config t base ∧ Built setting.config r base commit result
  | .swapBefore swap expected commit | .swapUpdate swap expected commit =>
      SwapOk setting r t swap expected commit
  | .swapAfter swap commit => ∃ expected, SwapOk setting r t swap expected commit
  | .done result => Kept r t result
  | .atomic | .head _ | .create _ | .lease _ _ | .checkout _ _ _ | .failed => True

/-- **The invariant.**  The tip is a chain of entries, and every commit that
a ref or a process holds was part of the branch or is an empty root. -/
structure Inv (w : World Client Repo) : Prop where
  tip : ∀ c, Ledger.tip setting w = some c → Valid setting.config c
  remote : setting.authority = none → ∀ c ∈ w.remote, Settled setting.config (Ledger.tip setting w) c
  tracking : ∀ repo c, (w.repos repo).tracking = some c →
    Settled setting.config (Ledger.tip setting w) c
  branch : ∀ repo c, (w.repos repo).branch = some c →
    Settled setting.config (Ledger.tip setting w) c
  phases : ∀ c, PhaseOk setting (setting.request c) (Ledger.tip setting w) (w.phases c)

variable {setting} {r : Request} {t t' : Option Commit}

theorem inv_nothing : Inv setting (nothing : World Client Repo) := by
  have htip : Ledger.tip setting (nothing : World Client Repo) = none := by
    unfold Ledger.tip
    cases setting.authority <;> rfl
  refine ⟨fun c hc => ?_, fun _ c hc => absurd hc List.not_mem_nil, fun _ _ hc => ?_,
    fun _ _ hc => ?_, fun _ => trivial⟩
  · rw [htip] at hc
    cases hc
  · cases hc
  · cases hc

theorem SwapOk.mono {swap : Swap} {expected : Option Commit} {commit : Commit}
    (h : SwapOk setting r t swap expected commit) (ha : Advances t t') :
    SwapOk setting r t' swap expected commit := by
  cases swap with
  | root n => exact h
  | join n => exact ⟨h.1, h.2.mono ha⟩
  | append n base result => exact ⟨h.1, h.2.1.mono ha, h.2.2⟩

theorem PhaseOk.mono {p : Phase} (h : PhaseOk setting r t p) (ha : Advances t t') :
    PhaseOk setting r t' p := by
  cases p with
  | observing a | atomicPush a | reconciling a => exact ⟨h.1, h.2.1.mono ha, h.2.2⟩
  | recordTracking a | recordLocal a => exact ⟨h.1, h.2.1.mono ha, h.2.2.mono ha⟩
  | track f before fetched => exact ⟨h.1, h.2.mono ha⟩
  | build n lease base => exact Settled.mono h ha
  | publish n lease base commit result => exact ⟨h.1.mono ha, h.2⟩
  | swapBefore swap expected commit | swapUpdate swap expected commit => exact SwapOk.mono h ha
  | swapAfter swap commit =>
      obtain ⟨expected, h⟩ := h
      exact ⟨expected, h.mono ha⟩
  | done result => exact Kept.mono h ha
  | _ => exact h

/-- The tip advances and refs follow it; the processes stand where they stood. -/
theorem Inv.advance {w w' : World Client Repo} (h : Inv setting w)
    (ha : Advances (Ledger.tip setting w) (Ledger.tip setting w'))
    (hvalid : ∀ c, Ledger.tip setting w' = some c → Valid setting.config c)
    (hremote : ∀ c ∈ w'.remote, c ∈ w.remote ∨ Ledger.tip setting w' = some c)
    (htracking : ∀ repo, (w'.repos repo).tracking = (w.repos repo).tracking)
    (hbranch : ∀ repo, (w'.repos repo).branch = (w.repos repo).branch
      ∨ (w'.repos repo).branch = Ledger.tip setting w')
    (hphases : w'.phases = w.phases) : Inv setting w' := by
  refine ⟨hvalid, fun hauth c hc => ?_, fun repo c hc => ?_, fun repo c hc => ?_, fun c => ?_⟩
  · rcases hremote c hc with hc | hc
    · exact (h.remote hauth c hc).mono ha
    · exact .of_tip (hvalid c hc) hc
  · rw [htracking] at hc
    exact (h.tracking repo c hc).mono ha
  · rcases hbranch repo with heq | heq
    · rw [heq] at hc
      exact (h.branch repo c hc).mono ha
    · rw [heq] at hc
      exact .of_tip (hvalid c hc) hc
  · rw [hphases]
    exact (h.phases c).mono ha

theorem tip_of_remote (hauth : setting.authority = none) (w : World Client Repo) :
    Ledger.tip setting w = w.remote.head? := by
  rw [Ledger.tip, hauth]

variable [DecidableEq Repo] {w : World Client Repo} {c : Client} {repo : Repo}

theorem tip_of_authority (hauth : setting.authority ≠ none) (w : World Client Repo) (c : Client) :
    Ledger.tip setting w = (w.repos (setting.home c)).branch := by
  cases ha : setting.authority with
  | none => exact absurd ha hauth
  | some repo => simp [Ledger.tip, Setting.home, ha]

@[simp] theorem tip_setTracking (v : Option Commit) :
    Ledger.tip setting (w.setTracking repo v) = Ledger.tip setting w := by
  unfold Ledger.tip
  cases setting.authority with
  | none => rfl
  | some repo' =>
      by_cases h : repo' = repo
      · subst h
        simp [World.setTracking]
      · simp [World.setTracking, Function.update_of_ne h]

theorem Inv.setTracking (h : Inv setting w) {v : Option Commit}
    (hv : ∀ c, v = some c → Settled setting.config (Ledger.tip setting w) c) :
    Inv setting (w.setTracking repo v) := by
  refine ⟨?_, ?_, fun repo' c hc => ?_, fun repo' c hc => ?_, ?_⟩
  · rw [tip_setTracking]
    exact h.tip
  · rw [tip_setTracking]
    exact h.remote
  · rw [tip_setTracking]
    by_cases hr : repo' = repo
    · subst hr
      exact hv c (by simpa [World.setTracking] using hc)
    · exact h.tracking repo' c (by simpa [World.setTracking, Function.update_of_ne hr] using hc)
  · rw [tip_setTracking]
    by_cases hr : repo' = repo
    · subst hr
      exact h.branch repo' c (by simpa [World.setTracking] using hc)
    · exact h.branch repo' c (by simpa [World.setTracking, Function.update_of_ne hr] using hc)
  · rw [tip_setTracking]
    exact h.phases

/-- With a remote, a local branch is only a copy. -/
theorem Inv.setBranch (h : Inv setting w) (hauth : setting.authority = none) {v : Option Commit}
    (hv : ∀ c, v = some c → Settled setting.config (Ledger.tip setting w) c) :
    Inv setting (w.setBranch repo v) := by
  have htip : Ledger.tip setting (w.setBranch repo v) = Ledger.tip setting w := by
    rw [tip_of_remote hauth, tip_of_remote hauth]
    rfl
  refine ⟨?_, ?_, fun repo' c hc => ?_, fun repo' c hc => ?_, ?_⟩
  · rw [htip]
    exact h.tip
  · rw [htip]
    exact h.remote
  · rw [htip]
    by_cases hr : repo' = repo
    · subst hr
      exact h.tracking repo' c (by simpa [World.setBranch] using hc)
    · exact h.tracking repo' c (by simpa [World.setBranch, Function.update_of_ne hr] using hc)
  · rw [htip]
    by_cases hr : repo' = repo
    · subst hr
      exact hv c (by simpa [World.setBranch] using hc)
    · exact h.branch repo' c (by simpa [World.setBranch, Function.update_of_ne hr] using hc)
  · rw [htip]
    exact h.phases

variable [DecidableEq Client]

@[simp] theorem tip_goto (p : Phase) : Ledger.tip setting (w.goto c p) = Ledger.tip setting w := rfl

theorem Inv.goto (h : Inv setting w) {p : Phase}
    (hp : PhaseOk setting (setting.request c) (Ledger.tip setting w) p) :
    Inv setting (w.goto c p) := by
  refine ⟨h.tip, h.remote, h.tracking, h.branch, fun c' => ?_⟩
  rw [tip_goto]
  by_cases hc : c' = c
  · subst hc
    simpa [World.goto] using hp
  · simpa [World.goto, Function.update_of_ne hc] using h.phases c'

/-! ## Steps -/

/-- A push that reaches the remote branch extends it, if the lease it was
compared with is the base of the commit, or if there was no branch. -/
theorem Inv.push (h : Inv setting w) (hauth : setting.authority = none) {lease : Option Commit}
    {commit : Commit} (reached : Bool) (hvalid : Valid setting.config commit)
    (hbase : w.remote.head? = lease → lease = none ∨ commit.base? = lease) :
    Inv setting { w with remote := (Ledger.push w.remote lease commit reached).1 }
      ∧ Advances (Ledger.tip setting w)
          (Ledger.tip setting { w with remote := (Ledger.push w.remote lease commit reached).1 })
      ∧ ((Ledger.push w.remote lease commit reached).2 = true →
          Ledger.tip setting { w with remote := (Ledger.push w.remote lease commit reached).1 }
            = some commit) := by
  have hstay : Advances (Ledger.tip setting w) (Ledger.tip setting { w with remote := w.remote }) :=
    Or.inl rfl
  unfold Ledger.push
  split
  · exact ⟨h, hstay, fun hf => by cases hf⟩
  · split
    · next heq => exact ⟨h, hstay, fun _ => (tip_of_remote hauth w).trans heq⟩
    · split
      · next hlease =>
        have htip : Ledger.tip setting { w with remote := commit :: w.remote } = some commit := by
          rw [tip_of_remote hauth]
          rfl
        have ha : Advances (Ledger.tip setting w)
            (Ledger.tip setting { w with remote := commit :: w.remote }) := by
          refine Or.inr ⟨commit, htip, fun b hb => ?_⟩
          rw [tip_of_remote hauth, hlease] at hb
          rcases hbase hlease with hnone | hbase
          · rw [hnone] at hb
            cases hb
          · exact hbase.trans hb
        refine ⟨h.advance ha (fun d hd => ?_) (fun d hd => ?_) (fun _ => rfl) (fun _ => Or.inl rfl)
          rfl, ha, fun _ => htip⟩
        · rw [htip] at hd
          exact Option.some.inj hd ▸ hvalid
        · rcases List.mem_cons.mp hd with rfl | hd
          · exact Or.inr htip
          · exact Or.inl hd
      · exact ⟨h, hstay, fun hf => by cases hf⟩

/-- An update that takes effect compares with the commit that its own was
built on: a push with its lease, an `update-ref` with its old value. -/
def BaseCompared (setting : Setting Client Repo) (w : World Client Repo) :
    Action Client Repo → Prop
  | .track _ _ => True
  | .act c _ =>
      match w.phases c with
      | .publish _ lease base _ _ =>
          setting.authority = none → w.remote.head? = lease → lease = none ∨ lease = some base
      | .swapUpdate (.append _ base _) expected _ =>
          (w.repos (setting.home c)).branch = expected → expected = some base
      | _ => True

theorem phaseOk_attemptFrom (attempt : Nat) (fresh : Bool) :
    PhaseOk setting r t (attemptFrom setting.config attempt fresh) := by
  unfold attemptFrom
  split
  · exact fun hf => absurd rfl hf
  · trivial

theorem phaseOk_afterRefresh {f : Refresh} (h : f.root ≠ none → setting.authority = none)
    (refreshed : Bool) : PhaseOk setting r t (afterRefresh f refreshed) := by
  unfold afterRefresh
  split
  · next root hroot => exact h (by rw [hroot]; exact Option.some_ne_none root)
  · split <;> trivial

/-- When the local branch holds the commit, the update has served its purpose. -/
theorem phaseOk_swapped {swap : Swap} {expected : Option Commit} {commit : Commit}
    (h : SwapOk setting r t swap expected commit)
    (hbranch : setting.authority ≠ none → t = some commit) :
    PhaseOk setting r t (swapped setting commit swap) := by
  cases swap with
  | root n =>
      rw [swapped]
      split
      · next hauth => exact ⟨Option.isNone_iff_eq_none.mp hauth, h.2⟩
      · trivial
  | join n => trivial
  | append n base result => exact h.2.2.kept (hbranch h.1)

theorem settled_synchronized {current : Option Commit} {commit : Commit} {expected : Option Commit}
    (hcurrent : ∀ c, current = some c → Settled setting.config t c)
    (hcommit : Settled setting.config t commit) :
    ∀ c, synchronized current commit expected = some c → Settled setting.config t c := by
  intro c hc
  unfold synchronized at hc
  split at hc
  · exact Option.some.inj hc ▸ hcommit
  · split at hc
    · exact hcurrent c hc
    · split at hc
      · exact Option.some.inj hc ▸ hcommit
      · exact hcurrent c hc

/-- What a step leaves: the tip has advanced, if it moved, and the invariant holds. -/
def Stepped (setting : Setting Client Repo) (w w' : World Client Repo) : Prop :=
  Advances (Ledger.tip setting w) (Ledger.tip setting w') ∧ Inv setting w'

theorem Inv.stay (h : Inv setting w) {p : Phase}
    (hp : PhaseOk setting (setting.request c) (Ledger.tip setting w) p) :
    Stepped setting w (w.goto c p) :=
  ⟨Or.inl rfl, h.goto hp⟩

/-- A step that moves a tracking ref to a settled commit. -/
theorem Inv.tracked (h : Inv setting w) {v : Option Commit} {p : Phase}
    (hv : ∀ d, v = some d → Settled setting.config (Ledger.tip setting w) d)
    (hp : PhaseOk setting (setting.request c) (Ledger.tip setting w) p) :
    Stepped setting w ((w.setTracking repo v).goto c p) := by
  refine ⟨Or.inl ?_, (h.setTracking hv).goto ?_⟩
  · rw [tip_goto, tip_setTracking]
  · rw [tip_setTracking]
    exact hp

/-- A step that pushes, with where the process goes afterwards. -/
theorem Inv.pushed (h : Inv setting w) (hauth : setting.authority = none) {lease : Option Commit}
    {commit : Commit} (reached : Bool) (hvalid : Valid setting.config commit)
    (hbase : w.remote.head? = lease → lease = none ∨ commit.base? = lease) {p : Phase}
    (hp : ∀ t, Advances (Ledger.tip setting w) t →
      ((Ledger.push w.remote lease commit reached).2 = true → t = some commit) →
      PhaseOk setting (setting.request c) t p) :
    Stepped setting w
      ({ w with remote := (Ledger.push w.remote lease commit reached).1 }.goto c p) := by
  obtain ⟨hinv, ha, htip⟩ := h.push hauth reached hvalid hbase
  exact ⟨ha, hinv.goto (hp _ ha htip)⟩

/-- The old-value update of a local ref. -/
theorem Inv.swapUpdated (h : Inv setting w) {swap : Swap} {expected : Option Commit}
    {commit : Commit} {e : Surroundings} (hphase : w.phases c = .swapUpdate swap expected commit)
    (hguard : BaseCompared setting w (.act c e)) :
    Stepped setting w
      ((w.setBranch (setting.home c)
        (if e.reached && (w.repos (setting.home c)).branch = expected then some commit
          else (w.repos (setting.home c)).branch)).goto c (.swapAfter swap commit)) := by
  have hp := h.phases c
  rw [hphase] at hp
  have hswap : SwapOk setting (setting.request c) (Ledger.tip setting w) swap expected commit := hp
  by_cases hauth : setting.authority = none
  · -- with a remote the tip is elsewhere
    have hv : ∀ d, (if e.reached && (w.repos (setting.home c)).branch = expected then some commit
        else (w.repos (setting.home c)).branch) = some d →
        Settled setting.config (Ledger.tip setting w) d := by
      intro d hd
      split at hd
      · obtain rfl := Option.some.inj hd
        cases swap with
        | root n => exact .of_root hswap.2.choose_spec
        | join n => exact hswap.2
        | append n base result => exact absurd hauth hswap.1
      · exact h.branch _ d hd
    have htip : ∀ v, Ledger.tip setting (w.setBranch (setting.home c) v) = Ledger.tip setting w := by
      intro v
      rw [tip_of_remote hauth, tip_of_remote hauth]
      rfl
    refine ⟨Or.inl ?_, (h.setBranch hauth hv).goto ⟨expected, ?_⟩⟩
    · rw [tip_goto, htip]
    · rw [htip]
      exact hswap
  · -- without one the local branch is the tip
    have htip := tip_of_authority hauth w c
    split
    · next hreached =>
      have hexpected : (w.repos (setting.home c)).branch = expected := by
        simpa using (Bool.and_eq_true_iff.mp hreached).2
      have htip' : Ledger.tip setting (w.setBranch (setting.home c) (some commit)) = some commit := by
        rw [tip_of_authority hauth _ c]
        simp [World.setBranch]
      have hnew : Valid setting.config commit
          ∧ ∀ b, Ledger.tip setting w = some b → commit.base? = some b := by
        cases swap with
        | root n =>
            obtain ⟨hnone, now, rfl⟩ := hswap
            refine ⟨.root now, fun b hb => ?_⟩
            rw [htip, hexpected, hnone] at hb
            cases hb
        | join n => exact absurd hswap.1 hauth
        | append n base result =>
            refine ⟨hswap.2.2.valid hswap.2.1.valid, fun b hb => ?_⟩
            simp only [BaseCompared, hphase] at hguard
            rw [htip, hexpected, hguard hexpected] at hb
            rw [hswap.2.2.base_eq, hb]
      have ha : Advances (Ledger.tip setting w)
          (Ledger.tip setting (w.setBranch (setting.home c) (some commit))) :=
        Or.inr ⟨commit, htip', hnew.2⟩
      refine ⟨ha, (h.advance ha (fun d hd => ?_) (fun d hd => Or.inl hd) (fun repo => ?_)
        (fun repo => ?_) rfl).goto ⟨expected, hswap.mono ha⟩⟩
      · rw [htip'] at hd
        exact Option.some.inj hd ▸ hnew.1
      · by_cases hr : repo = setting.home c
        · subst hr
          simp [World.setBranch]
        · simp [World.setBranch, Function.update_of_ne hr]
      · by_cases hr : repo = setting.home c
        · subst hr
          exact Or.inr (by rw [htip']; simp [World.setBranch])
        · exact Or.inl (by simp [World.setBranch, Function.update_of_ne hr])
    · have hsame : w.setBranch (setting.home c) (w.repos (setting.home c)).branch = w := by
        simp [World.setBranch]
      rw [hsame]
      exact h.stay ⟨expected, hswap⟩

variable {w' : World Client Repo} {e : Surroundings}

/-- One command of a process: one case for each place where it can stand. -/
theorem act_kept (h : Inv setting w) (hguard : BaseCompared setting w (.act c e))
    (hact : act setting w c e = .ok w') : Stepped setting w w' := by
  have hp := h.phases c
  have hattempt : ∀ {t : Option Commit} (n : Nat) (fresh : Bool),
      PhaseOk setting (setting.request c) t (attemptFrom setting.config n fresh) :=
    fun n fresh => phaseOk_attemptFrom n fresh
  unfold act at hact
  dsimp only at hact
  cases hphase : w.phases c with
  | atomic =>
      rw [hphase] at hact
      dsimp only at hact
      split at hact
      · next base key hauth hbase hkey =>
        split at hact
        · next hnew =>
          obtain rfl := Except.ok.inj hact
          have hnone : mapGet base.tree.idempotency key.hash = none := by
            simpa using (Bool.and_eq_true_iff.mp hnew).2
          exact h.stay ⟨hauth, h.tracking _ base hbase, key, e.now, hkey, hnone, rfl, rfl⟩
        · obtain rfl := Except.ok.inj hact
          exact h.stay (hattempt 1 false)
      · obtain rfl := Except.ok.inj hact
        exact h.stay (hattempt 1 false)
  | observing audit =>
      rw [hphase] at hp hact
      dsimp only at hact
      split at hact
      · obtain rfl := Except.ok.inj hact
        exact h.stay hp
      · obtain rfl := Except.ok.inj hact
        exact h.stay (hattempt 1 false)
  | atomicPush audit =>
      rw [hphase] at hp hact
      obtain ⟨hauth, hlease, hbuilt⟩ := hp
      obtain rfl := Except.ok.inj hact
      have hvalid := hbuilt.valid hlease.valid
      refine h.pushed hauth e.reached hvalid (fun _ => Or.inr hbuilt.base_eq) fun t ha ht => ?_
      split
      · exact ⟨hauth, hlease.mono ha, hbuilt⟩
      · split
        · next hlanded => exact ⟨hauth, .of_tip hvalid (ht hlanded), hbuilt.kept (ht hlanded)⟩
        · exact hattempt 1 false
  | reconciling audit =>
      rw [hphase] at hp hact
      obtain ⟨hauth, hlease, hbuilt⟩ := hp
      dsimp only at hact
      split at hact
      · next hlanded =>
        obtain rfl := Except.ok.inj hact
        have htip : Ledger.tip setting w = some audit.commit := by
          rw [tip_of_remote hauth]
          simpa using (Bool.and_eq_true_iff.mp hlanded).2
        exact h.stay ⟨hauth, .of_tip (hbuilt.valid hlease.valid) htip, hbuilt.kept htip⟩
      · obtain rfl := Except.ok.inj hact
        exact h.stay (hattempt 1 true)
  | recordTracking audit =>
      rw [hphase] at hp hact
      obtain ⟨hauth, hcommit, hkept⟩ := hp
      obtain rfl := Except.ok.inj hact
      refine h.tracked (fun d hd => ?_) ⟨hauth, hcommit, hkept⟩
      split at hd
      · exact settled_synchronized (h.tracking _) hcommit d hd
      · exact h.tracking _ d hd
  | recordLocal audit =>
      rw [hphase] at hp hact
      obtain ⟨hauth, hcommit, hkept⟩ := hp
      obtain rfl := Except.ok.inj hact
      have hv : ∀ d, (if e.reached then
          synchronized (w.repos (setting.home c)).branch audit.commit none
          else (w.repos (setting.home c)).branch) = some d →
          Settled setting.config (Ledger.tip setting w) d := by
        intro d hd
        split at hd
        · exact settled_synchronized (h.branch _) hcommit d hd
        · exact h.branch _ d hd
      have htip : ∀ v, Ledger.tip setting (w.setBranch (setting.home c) v)
          = Ledger.tip setting w := by
        intro v
        rw [tip_of_remote hauth, tip_of_remote hauth]
        rfl
      refine ⟨Or.inl ?_, (h.setBranch hauth hv).goto ?_⟩
      · rw [tip_goto, htip]
      · rw [htip]
        exact hkept
  | refresh f =>
      rw [hphase] at hp hact
      dsimp only at hact
      split at hact
      · obtain rfl := Except.ok.inj hact
        exact h.stay trivial
      · split at hact
        · obtain rfl := Except.ok.inj hact
          exact h.stay (phaseOk_afterRefresh hp false)
        · next hauth =>
          obtain rfl := Except.ok.inj hact
          have hnone : setting.authority = none := by simpa using hauth
          exact h.stay hnone
  | observe f before =>
      rw [hphase] at hp hact
      have hauth : setting.authority = none := hp
      dsimp only at hact
      split at hact
      · split at hact
        · obtain rfl := Except.ok.inj hact
          exact h.stay (phaseOk_afterRefresh (fun _ => hauth) true)
        · obtain rfl := Except.ok.inj hact
          exact h.stay hauth
      · obtain rfl := Except.ok.inj hact
        exact h.stay (phaseOk_afterRefresh (fun _ => hauth) false)
  | fetch f before observed =>
      rw [hphase] at hp hact
      have hauth : setting.authority = none := hp
      dsimp only at hact
      split at hact
      · next fetched _ hhead =>
        split at hact
        · obtain rfl := Except.ok.inj hact
          exact h.stay (hattempt _ true)
        · split at hact
          · obtain rfl := Except.ok.inj hact
            exact h.stay (phaseOk_afterRefresh (fun _ => hauth) true)
          · obtain rfl := Except.ok.inj hact
            exact h.stay ⟨hauth, h.remote hauth fetched (List.mem_of_mem_head? hhead)⟩
      · obtain rfl := Except.ok.inj hact
        exact h.stay (phaseOk_afterRefresh (fun _ => hauth) false)
  | track f before fetched =>
      rw [hphase] at hp hact
      obtain ⟨hauth, hfetched⟩ := hp
      obtain rfl := Except.ok.inj hact
      have hnext : ∀ v : Option Commit, PhaseOk setting (setting.request c) (Ledger.tip setting w)
          (if e.answered && v = some fetched then afterRefresh f true
            else retry setting.config f.attempt) := by
        intro v
        split
        · exact phaseOk_afterRefresh (fun _ => hauth) true
        · exact hattempt _ true
      refine h.tracked (fun d hd => ?_) (hnext _)
      split at hd
      · exact Option.some.inj hd ▸ hfetched
      · exact h.tracking _ d hd
  | head n =>
      rw [hphase] at hact
      dsimp only at hact
      split at hact <;> obtain rfl := Except.ok.inj hact <;> exact h.stay trivial
  | create n =>
      rw [hphase] at hact
      dsimp only at hact
      split at hact
      · obtain rfl := Except.ok.inj hact
        exact h.stay ⟨rfl, e.now, rfl⟩
      · obtain rfl := Except.ok.inj hact
        exact h.stay trivial
  | rootPush n root =>
      rw [hphase] at hp hact
      obtain ⟨hauth, now, rfl⟩ := hp
      obtain rfl := Except.ok.inj hact
      refine h.pushed hauth e.reached (.root now) (fun _ => Or.inl rfl) fun t _ _ => ?_
      split
      · exact ⟨hauth, now, rfl⟩
      · exact fun _ => hauth
  | rootTracking n root =>
      rw [hphase] at hp hact
      obtain ⟨hauth, now, hroot⟩ := hp
      obtain rfl := Except.ok.inj hact
      refine h.tracked (fun d hd => ?_) trivial
      split at hd
      · exact settled_synchronized (h.tracking _) (.of_root hroot) d hd
      · exact h.tracking _ d hd
  | joining n root =>
      rw [hphase] at hp hact
      have hauth : setting.authority = none := hp
      dsimp only at hact
      split at hact
      · next winner hwinner =>
        obtain rfl := Except.ok.inj hact
        exact h.stay ⟨hauth, h.tracking _ winner hwinner⟩
      · obtain rfl := Except.ok.inj hact
        exact h.stay trivial
  | lease n ref =>
      rw [hphase] at hact
      obtain rfl := Except.ok.inj hact
      exact h.stay trivial
  | checkout n ref lease =>
      rw [hphase] at hact
      dsimp only at hact
      split at hact
      · next base _ hbase =>
        obtain rfl := Except.ok.inj hact
        have hsettled : Settled setting.config (Ledger.tip setting w) base := by
          cases ref with
          | tracking => exact h.tracking _ base hbase
          | branch => exact h.branch _ base hbase
        exact h.stay hsettled
      · obtain rfl := Except.ok.inj hact
        exact h.stay trivial
  | build n lease base =>
      rw [hphase] at hp hact
      have hbase : Settled setting.config (Ledger.tip setting w) base := hp
      dsimp only at hact
      split at hact
      · obtain rfl := Except.ok.inj hact
        exact h.stay trivial
      · next key hkey =>
        split at hact
        · next recorded hrecorded =>
          obtain rfl := Except.ok.inj hact
          have hkept : Kept (setting.request c) (Ledger.tip setting w)
              ⟨true, recorded.eventId, recorded.entryHash, recorded.sequence, base⟩ :=
            hbase.kept hkey hrecorded rfl
          exact h.stay hkept
        · next hnone =>
          split at hact
          · obtain rfl := Except.ok.inj hact
            exact h.stay ⟨hbase, key, e.now, hkey, hnone, rfl, rfl⟩
          · obtain rfl := Except.ok.inj hact
            exact h.stay trivial
  | publish n lease base commit result =>
      rw [hphase] at hp hact
      obtain ⟨hbase, hbuilt⟩ := hp
      dsimp only at hact
      split at hact
      · next hnone =>
        obtain rfl := Except.ok.inj hact
        have hauth : setting.authority = none := Option.isNone_iff_eq_none.mp hnone
        simp only [BaseCompared, hphase] at hguard
        refine h.pushed hauth e.reached (hbuilt.valid hbase.valid) (fun hhead => ?_) fun t _ ht => ?_
        · refine (hguard hauth hhead).imp_right fun heq => ?_
          rw [heq, hbuilt.base_eq]
        · split
          · next hdone => exact hbuilt.kept (ht (Bool.and_eq_true_iff.mp hdone).2)
          · exact hattempt _ true
      · next hsome =>
        obtain rfl := Except.ok.inj hact
        have hauth : setting.authority ≠ none := fun hf => hsome (by rw [hf]; rfl)
        exact h.stay ⟨hauth, hbase, hbuilt⟩
  | swapBefore swap expected commit =>
      rw [hphase] at hp hact
      have hswap : SwapOk setting (setting.request c) (Ledger.tip setting w) swap expected commit := hp
      dsimp only at hact
      split at hact
      · next hbranch =>
        obtain rfl := Except.ok.inj hact
        exact h.stay (phaseOk_swapped hswap fun hauth => (tip_of_authority hauth w c).trans hbranch)
      · split at hact
        · obtain rfl := Except.ok.inj hact
          exact h.stay (hattempt _ true)
        · obtain rfl := Except.ok.inj hact
          exact h.stay hswap
  | swapUpdate swap expected commit =>
      rw [hphase] at hact
      obtain rfl := Except.ok.inj hact
      exact h.swapUpdated hphase hguard
  | swapAfter swap commit =>
      rw [hphase] at hp hact
      obtain ⟨expected, hswap⟩ := hp
      dsimp only at hact
      split at hact
      · obtain rfl := Except.ok.inj hact
        exact h.stay trivial
      · split at hact
        · next hbranch =>
          obtain rfl := Except.ok.inj hact
          exact h.stay (phaseOk_swapped hswap fun hauth => (tip_of_authority hauth w c).trans hbranch)
        · obtain rfl := Except.ok.inj hact
          exact h.stay (hattempt _ true)
  | done result =>
      rw [hphase] at hact
      cases hact
  | failed =>
      rw [hphase] at hact
      cases hact

/-- **A step.** -/
theorem step_kept (h : Inv setting w) {a : Action Client Repo} (hguard : BaseCompared setting w a)
    (hstep : step setting w a = .ok w') : Stepped setting w w' := by
  cases a with
  | act c e => exact act_kept h hguard hstep
  | track repo commit =>
      rw [step] at hstep
      split at hstep
      · next hmem =>
        obtain rfl := Except.ok.inj hstep
        have hauth : setting.authority = none := Option.isNone_iff_eq_none.mp hmem.1
        refine ⟨Or.inl (tip_setTracking _), h.setTracking fun d hd => ?_⟩
        exact Option.some.inj hd ▸ h.remote hauth commit hmem.2
      · cases hstep

/-! ## Runs -/

/-- What the claims about a ledger ask of a tip: the head counts the entries
behind it, they are what it leads to, and no key is there twice. -/
structure WholeLedger (c : Commit) : Prop where
  sequence : c.tree.head.sequence = c.log.length
  chain : (∀ e ∈ c.log, ∀ e' ∈ c.log, entryHash e = entryHash e' → e = e') →
    Chain c.tree.entries (orNull c.tree.head.entryHash) c.log
  once : ∀ value, c.log.countP (fun e => Holds e value) ≤ 1

/-- Nothing is lost in a run that has come to `w`. -/
structure LedgerKept (setting : Setting Client Repo)
    (past : List (World Client Repo × Action Client Repo)) (w : World Client Repo) : Prop where
  /-- Every step has left the tip where it was or built on it. -/
  advances : ∀ entry ∈ past, ∀ v, step setting entry.1 entry.2 = .ok v →
    Advances (Ledger.tip setting entry.1) (Ledger.tip setting v)
  /-- The tip is a whole ledger. -/
  whole : ∀ c, Ledger.tip setting w = some c → WholeLedger c
  /-- What an append has reported is an entry behind the tip. -/
  reported : ∀ c result, w.phases c = .done result →
    Kept (setting.request c) (Ledger.tip setting w) result

/-- **No entry is lost**, in every run in which each update that takes effect
was compared with the commit that it builds on. -/
theorem run_ledgerKept {past : List (World Client Repo × Action Client Repo)}
    (h : Run (step setting) nothing past w)
    (hguard : ∀ entry ∈ past, BaseCompared setting entry.1 entry.2) :
    LedgerKept setting past w := by
  have hrun := h.invariant
    (fun past w => Inv setting w ∧ ∀ entry ∈ past, ∀ v, step setting entry.1 entry.2 = .ok v →
      Advances (Ledger.tip setting entry.1) (Ledger.tip setting v))
    (BaseCompared setting) hguard
    ⟨inv_nothing, fun _ hmem => absurd hmem List.not_mem_nil⟩
    (fun {past w a w'} hinv hcompared hstep => by
      obtain ⟨hw, hpast⟩ := hinv
      obtain ⟨ha, hw'⟩ := step_kept hw hcompared hstep
      refine ⟨hw', List.forall_mem_cons.mpr ⟨fun v hv => ?_, hpast⟩⟩
      obtain rfl := Except.ok.inj (hstep.symm.trans hv)
      exact ha)
  obtain ⟨hinv, hpast⟩ := hrun
  refine ⟨hpast, fun c hc => ?_, fun c result hdone => ?_⟩
  · have hvalid := hinv.tip c hc
    exact ⟨hvalid.sequence, hvalid.chain, hvalid.once⟩
  · have hp := hinv.phases c
    rw [hdone] at hp
    exact hp

end World

/-! ## Two processes in one repository -/

theorem commitLedgerEntry_ne {config config' : Config} {r r' : Request} {key key' : IdempotencyKey}
    {base base' : Commit} {now now' : Text} (h : now ≠ now') :
    commitLedgerEntry config r key base now ≠ commitLedgerEntry config' r' key' base' now' :=
  fun heq => h (congrArg (fun c => c.tree.head.updatedAt) heq)

section LocalUpdate

variable {Client Repo : Type} [DecidableEq Client] [DecidableEq Repo]
  {setting : Setting Client Repo} {w : World Client Repo} {c : Client} {e : Surroundings}

theorem step_swapBefore {swap : Swap} {expected : Option Commit} {commit : Commit}
    (hphase : w.phases c = .swapBefore swap expected commit)
    (hne : (w.repos (setting.home c)).branch ≠ some commit)
    (heq : (w.repos (setting.home c)).branch = expected) :
    step setting w (.act c e) = .ok (w.goto c (.swapUpdate swap expected commit)) := by
  rw [step, act, hphase]
  dsimp only
  rw [if_neg hne, if_neg (not_not.mpr heq)]

theorem step_swapUpdate {swap : Swap} {expected : Option Commit} {commit : Commit}
    (hphase : w.phases c = .swapUpdate swap expected commit) (hreached : e.reached = true)
    (heq : (w.repos (setting.home c)).branch = expected) :
    step setting w (.act c e)
      = .ok ((w.setBranch (setting.home c) (some commit)).goto c (.swapAfter swap commit)) := by
  rw [step, act, hphase]
  dsimp only
  rw [if_pos (by simp [hreached, heq])]

theorem step_swapAfter {swap : Swap} {commit : Commit}
    (hphase : w.phases c = .swapAfter swap commit) (hanswered : e.answered = true)
    (heq : (w.repos (setting.home c)).branch = some commit) :
    step setting w (.act c e) = .ok (w.goto c (swapped setting commit swap)) := by
  rw [step, act, hphase]
  dsimp only
  rw [if_neg (by simp [hanswered]), if_pos heq]

end LocalUpdate

def sampleRequest (workId : String) : Request where
  intent := .obj [(js "schemaVersion", .num (.ofNat 1)), (js "eventId", .str (js workId)),
    (js "eventType", .str (js "phase-approved")),
    (js "subject", .obj [(js "workId", .str (js workId))])]
  publishedCommit := List.replicate 40 0x61
  pin := none

/-- Two processes in one repository without a remote. -/
def sampleSetting : Setting Bool Unit where
  config := ⟨4, js "none", 0⟩
  authority := some ()
  clone := fun _ => ()
  request := fun second => if second then sampleRequest "WORK-2" else sampleRequest "WORK-1"

/-- A command of the first process, at nine. -/
def first : Action Bool Unit := .act false ⟨true, true, js "09:00"⟩

/-- A command of the second process, a minute later. -/
def second : Action Bool Unit := .act true ⟨true, true, js "09:01"⟩

/-- One process, alone, creates the branch and appends to it. -/
theorem run_ledgerKept_single :
    ∃ past w, LedgerKept sampleSetting past w
      ∧ ∃ c result, Ledger.tip sampleSetting w = some c ∧ c.log.length = 1
        ∧ w.phases false = .done result := by
  have begun : GuardedRun (step sampleSetting) nothing (BaseCompared sampleSetting) [] nothing :=
    .empty
  have creating := (((begun.next (a := first) rfl trivial).next (a := first) rfl trivial).next
    (a := first) rfl trivial).next (a := first) rfl trivial
  have created := ((creating.next (a := first) (step_swapBefore rfl nofun rfl) trivial).next
    (a := first) (step_swapUpdate rfl rfl rfl) trivial).next (a := first)
    (step_swapAfter rfl rfl rfl) trivial
  have built := (((created.next (a := first) rfl trivial).next (a := first) rfl trivial).next
    (a := first) rfl trivial).next (a := first) rfl trivial
  have compared := (built.next (a := first) rfl nofun).next (a := first)
    (step_swapBefore rfl nofun rfl) trivial
  have ended := (compared.next (a := first) (step_swapUpdate rfl rfl rfl) fun _ => rfl).next
    (a := first) (step_swapAfter rfl rfl rfl) trivial
  exact ⟨_, _, run_ledgerKept ended.run ended.guarded, _, _, rfl,
    congrArg List.length (log_commitLedgerEntry ..), rfl⟩

/-- Both build on the empty root.  The second one appends; then the first reads
the value it will compare with, which is the second's commit, and replaces it. -/
theorem run_lost : ∃ past w, Run (step sampleSetting) nothing past w
    ∧ ¬ LedgerKept sampleSetting past w := by
  have begun : Run (step sampleSetting) nothing [] nothing := .start
  have creating := (((begun.step (a := first) rfl).step (a := first) rfl).step (a := first)
    rfl).step (a := first) rfl
  have created := ((creating.step (a := first) (step_swapBefore rfl nofun rfl)).step (a := first)
    (step_swapUpdate rfl rfl rfl)).step (a := first) (step_swapAfter rfl rfl rfl)
  have built := (((created.step (a := first) rfl).step (a := first) rfl).step (a := first)
    rfl).step (a := first) rfl
  -- the second process appends behind the first one's back
  have based := ((((built.step (a := second) rfl).step (a := second) rfl).step (a := second)
    rfl).step (a := second) rfl).step (a := second) rfl
  have compared := ((based.step (a := second) rfl).step (a := second) rfl).step (a := second)
    (step_swapBefore rfl nofun rfl)
  have appended := (compared.step (a := second) (step_swapUpdate rfl rfl rfl)).step (a := second)
    (step_swapAfter rfl rfl rfl)
  have reread := (appended.step (a := first) rfl).step (a := first)
    (step_swapBefore rfl (fun h => commitLedgerEntry_ne (by decide) (Option.some.inj h)) rfl)
  have replaced := reread.step (a := first) (step_swapUpdate rfl rfl rfl)
  refine ⟨_, _, replaced, fun h => ?_⟩
  have hadvance := h.advances _ List.mem_cons_self _ (step_swapUpdate rfl rfl rfl)
  rcases hadvance with hsame | ⟨c, hc, hbase⟩
  · exact commitLedgerEntry_ne (by decide) (Option.some.inj hsame)
  · have hsecond := hbase _ rfl
    rw [← Option.some.inj hc] at hsecond
    cases hsecond

end Ledger

end SingularityFlow
