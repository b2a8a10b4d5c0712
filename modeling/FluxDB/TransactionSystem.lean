-- Transactions over time. Each call to the manager is cut where it releases a lock, so
-- a commit writes the CLOG in one step and leaves the active set in a later one. The
-- phase of a transaction says how far its calls have come.
import FluxDB.TransactionManager
import FluxDB.Lib.Runs

namespace FluxDB

open Maps List Function TransactionManager AList

/-! ## Phases and holders -/

/-- How far a transaction is. `starting` has joined the active set and has no CLOG entry
yet; `committing` and `aborting` have their final CLOG entry and are still active. -/
inductive Phase
  | unborn
  | starting
  | running
  | committing
  | aborting
  | committed
  | aborted
  deriving DecidableEq, Repr

namespace Phase

/-- The CLOG entry of a transaction in this phase. -/
def clog : Phase → Option TransactionStatus
  | unborn | starting => none
  | running => some .Active
  | committing | committed => some .Committed
  | aborting | aborted => some .Aborted

/-- The active set holds the transaction in this phase. -/
def Open : Phase → Prop
  | starting | running | committing | aborting => True
  | unborn | committed | aborted => False

instance : DecidablePred Open := fun p => by cases p <;> unfold Open <;> infer_instance

/-- The phase is final. -/
def Settled : Phase → Prop
  | committed | aborted => True
  | _ => False

instance : DecidablePred Settled := fun p => by cases p <;> unfold Settled <;> infer_instance

/-- The CLOG entry is written for the last time. -/
def Final (p : Phase) : Prop := p.clog = some .Committed ∨ p.clog = some .Aborted

/-- The phase can be left for the other one. -/
def Next : Phase → Phase → Prop
  | unborn, starting | starting, running | running, committing | running, aborting
  | committing, committed | aborting, aborted => True
  | _, _ => False

attribute [simp] clog Open Settled Next

end Phase

/-- A snapshot in use: by a transaction, or by a reader that registered a token. -/
structure Holder where
  txn : Transaction
  token : Option Nat
  deriving DecidableEq, Repr

/-- The manager with the phase of every transaction and every snapshot taken so far. -/
structure Txns where
  tm : TransactionManager
  phase : Nat → Phase
  holders : List Holder

inductive TxnEvent
  | begin
  | begin_clog (t : Nat)
  | read_snapshot
  | end_read (token : Nat)
  | commit_clog (t : Nat)
  | commit_active (t : Nat)
  | abort_clog (t : Nat)
  | abort_active (t : Nat)
  deriving DecidableEq, Repr

namespace Txns

def new : Txns where
  tm := .new
  phase := fun _ => .unborn
  holders := []

/-- Move one transaction from one phase to another, with the manager's new state. -/
def move (w : Txns) (t : Nat) (source target : Phase) (tm : TransactionManager) :
    Option Txns :=
  if w.phase t = source then
    some { w with tm := tm, phase := update w.phase t target }
  else none

/-- One step of one caller of the manager. An id and a reader's token are issued only below the
last 64-bit number. -/
def step (w : Txns) : TxnEvent → Option Txns
  | .begin =>
    if w.tm.next_txn_id < u64Max then
      let (txn, tm) := w.tm.begin_active
      some { tm, phase := update w.phase txn.txn_id .starting,
             holders := { txn, token := none } :: w.holders }
    else none
  | .begin_clog t => w.move t .starting .running (w.tm.clog_insert t .Active)
  | .read_snapshot =>
    if w.tm.next_reader_token < u64Max then
      let (snapshot, token, tm) := w.tm.read_snapshot
      some { w with tm, holders := { txn := { txn_id := u64Max, snapshot },
                                     token := some token } :: w.holders }
    else none
  | .end_read token => some { w with tm := w.tm.end_read token }
  | .commit_clog t => w.move t .running .committing (w.tm.clog_insert t .Committed)
  | .commit_active t => w.move t .committing .committed (w.tm.active_remove t)
  | .abort_clog t => w.move t .running .aborting (w.tm.clog_insert t .Aborted)
  | .abort_active t => w.move t .aborting .aborted (w.tm.active_remove t)

/-- The manager still counts the snapshot in its horizon. -/
def Live (w : Txns) (h : Holder) : Prop :=
  match h.token with
  | none => h.txn.txn_id ∈ w.tm.active_txns
  | some token => token ∈ w.tm.readers

instance (w : Txns) (h : Holder) : Decidable (w.Live h) := by
  unfold Live
  cases h.token <;> infer_instance

/-! ## What holds in every reachable state -/

/-- What a holder's entry in the manager says about its snapshot. -/
def Registered (w : Txns) (h : Holder) : Prop :=
  match h.token with
  | none =>
    0 < h.txn.txn_id ∧ h.txn.txn_id < w.tm.next_txn_id ∧
      h.txn.txn_id ∈ h.txn.snapshot.active ∧
      ∀ m, w.tm.active_txns.lookup h.txn.txn_id = some m → m = h.txn.snapshot.xmin
  | some token =>
    h.txn.txn_id = u64Max ∧ token < w.tm.next_reader_token ∧
      ∀ m, w.tm.readers.lookup token = some m → m = h.txn.snapshot.xmin

/-- The snapshot of a holder is one that the manager has given out and counts. -/
structure HolderGood (w : Txns) (h : Holder) : Prop where
  xmin_le : h.txn.snapshot.xmin ≤ h.txn.snapshot.xmax
  active_ge : ∀ x ∈ h.txn.snapshot.active, h.txn.snapshot.xmin ≤ x
  registered : w.Registered h

/-- What holds of the transactions since the engine was opened: what a snapshot calls settled is
settled. The manager may know statuses of older ones from recovery, whose phase is `unborn`. -/
structure Sound (w : Txns) : Prop where
  next_pos : 0 < w.tm.next_txn_id
  next_le : w.tm.next_txn_id ≤ u64Max
  active : ∀ t, t ∈ w.tm.active_txns ↔ (w.phase t).Open
  issued : ∀ t, w.phase t ≠ .unborn → 0 < t ∧ t < w.tm.next_txn_id
  aborted : ∀ t, w.phase t = .aborting ∨ w.phase t = .aborted →
    w.tm.clog.lookup t = some .Aborted
  bounded : ∀ h ∈ w.holders, h.txn.snapshot.xmax ≤ w.tm.next_txn_id ∧
    ∀ x, w.phase x ≠ .unborn → x < h.txn.snapshot.xmax → x ∉ h.txn.snapshot.active →
      (w.phase x).Settled

/-- What holds of the manager of a new engine: it knows no other transactions. -/
structure Good (w : Txns) : Prop extends Sound w where
  fresh : ∀ t, w.phase t = .unborn → t = 0 ∨ w.tm.next_txn_id ≤ t
  clog : ∀ t, w.tm.clog.lookup t = (w.phase t).clog
  active_le : ∀ t m, w.tm.active_txns.lookup t = some m → m ≤ t
  reader_le : ∀ k m, w.tm.readers.lookup k = some m → m ≤ w.tm.next_txn_id
  reader_lt : ∀ k, k ∈ w.tm.readers → k < w.tm.next_reader_token
  holder : ∀ h ∈ w.holders, w.HolderGood h
  unique : ∀ h ∈ w.holders, ∀ h' ∈ w.holders, h.token = none → h'.token = none →
    h.txn.txn_id = h'.txn.txn_id → h = h'

theorem good_new : new.Good where
  next_pos := Nat.one_pos
  next_le := by decide
  active t := by simp [new, TransactionManager.new]
  issued t h := absurd rfl h
  aborted t h := by rcases h with h | h <;> cases h
  bounded := nofun
  fresh t _ := Nat.eq_zero_or_pos t
  clog _ := rfl
  active_le := nofun
  reader_le := nofun
  reader_lt := nofun
  holder := nofun
  unique := nofun

end Txns

/-! ## Phases move forward -/

variable {p q : Phase}

namespace Phase

/-- The phase is left for the other one by zero or more moves. -/
def Reaches : Phase → Phase → Prop := Relation.ReflTransGen Next

theorem Reaches.eq_of_settled (h : p.Reaches q) (hs : p.Settled) : q = p := by
  induction h with
  | refl => rfl
  | @tail a b _ hn ih => subst ih; cases a <;> simp_all

theorem Reaches.clog {status : TransactionStatus} (h : p.Reaches q) (hc : p.clog = some status)
    (hf : status ≠ .Active) : q.clog = some status := by
  induction h with
  | refl => exact hc
  | @tail a b _ hn ih => cases a <;> cases b <;> simp_all

theorem Reaches.final (h : p.Reaches q) (hf : p.Final) : q.Final :=
  hf.imp (fun hc => h.clog hc (by simp)) (fun hc => h.clog hc (by simp))

theorem Settled.final (h : p.Settled) : p.Final := by
  cases p <;> simp_all [Final]

theorem Reaches.clog_ne_none (h : p.Reaches q) (hc : p.clog ≠ none) : q.clog ≠ none := by
  induction h with
  | refl => exact hc
  | @tail a b _ hn ih => cases a <;> cases b <;> simp_all

theorem settled_of_not_open (hb : p ≠ .unborn) (ho : ¬ p.Open) : p.Settled := by
  cases p <;> simp_all

theorem Next.source_not_settled (h : p.Next q) : ¬ p.Settled := by
  cases p <;> simp_all

end Phase

namespace Txns

variable {w w' : Txns} {m t x : Nat} {e : TxnEvent}

theorem move_eq_some {tm : TransactionManager} (h : w.move t p q tm = some w') :
    w.phase t = p ∧ w' = { w with tm := tm, phase := update w.phase t q } := by
  unfold move at h
  split at h
  · next hp => exact ⟨hp, (Option.some.inj h).symm⟩
  · simp at h

theorem read_snapshot_eq_some (h : w.step .read_snapshot = some w') : w' = { w with
    tm := { w.tm with
      readers := w.tm.readers.insert w.tm.next_reader_token w.tm.get_snapshot.xmin
      next_reader_token := w.tm.next_reader_token + 1 }
    holders := { txn := { txn_id := u64Max, snapshot := w.tm.get_snapshot },
                 token := some w.tm.next_reader_token } :: w.holders } := by
  simp only [step] at h
  split at h <;> cases h
  rfl

/-! ## Each step keeps the invariants -/

namespace Sound

variable (h : w.Sound)

include h

theorem settled_of_not_active (hb : w.phase t ≠ .unborn) (ha : t ∉ w.tm.active_txns) :
    (w.phase t).Settled :=
  Phase.settled_of_not_open hb fun ho => ha ((h.active t).mpr ho)

/-- One transaction moves on, with the matching change of the manager. -/
theorem move {tm : TransactionManager} (hp : w.phase t = p) (hn : p.Next q)
    (hb : p ≠ .unborn) (hnext : tm.next_txn_id = w.tm.next_txn_id)
    (hactive : ∀ x, x ∈ tm.active_txns ↔ if x = t then q.Open else x ∈ w.tm.active_txns)
    (hclog : ∀ x, x ≠ t → tm.clog.lookup x = w.tm.clog.lookup x)
    (habort : q = .aborting ∨ q = .aborted → tm.clog.lookup t = some .Aborted) :
    Sound { w with tm, phase := update w.phase t q } where
  next_pos := hnext ▸ h.next_pos
  next_le := hnext ▸ h.next_le
  active x := by
    dsimp only
    rw [hactive, update_apply]
    split
    · exact .rfl
    · exact h.active x
  issued x hx := by
    dsimp only at hx ⊢
    rw [hnext]
    by_cases hxt : x = t
    · subst hxt
      exact h.issued x (hp ▸ hb)
    rw [update_of_ne hxt] at hx
    exact h.issued x hx
  aborted x hx := by
    dsimp only at hx ⊢
    by_cases hxt : x = t
    · subst hxt
      rw [update_self] at hx
      exact habort hx
    rw [update_of_ne hxt] at hx
    rw [hclog x hxt]
    exact h.aborted x hx
  bounded holder hm := by
    obtain ⟨hle, hsettled⟩ := h.bounded holder hm
    refine ⟨hnext ▸ hle, fun x hx hlt ha => ?_⟩
    dsimp only at hx ⊢
    by_cases hxt : x = t
    · subst hxt
      exact absurd (hp ▸ hsettled x (hp ▸ hb) hlt ha) hn.source_not_settled
    rw [update_of_ne hxt] at hx ⊢
    exact hsettled x hx hlt ha

theorem clog_insert {status : TransactionStatus} (hp : w.phase t = p)
    (hn : p.Next q) (hop : p.Open) (hoq : q.Open) (hstatus : q = .aborting → status = .Aborted) :
    Sound { w with
      tm := w.tm.clog_insert t status, phase := update w.phase t q } := by
  refine h.move hp hn (by rintro rfl; exact hop) rfl (fun x => ?_) (fun x hx => ?_) ?_
  · change x ∈ w.tm.active_txns ↔ _
    split
    · next hx =>
      subst hx
      rw [h.active, hp]
      exact iff_of_true hop hoq
    · exact .rfl
  · exact lookup_insert_ne hx
  intro hq
  have hab : q = .aborting := hq.resolve_right (by rintro rfl; exact hoq)
  rw [hstatus hab]
  exact lookup_insert _

theorem active_remove (hp : w.phase t = p) (hn : p.Next q) (hop : p.Open) (hsq : q.Settled) :
    Sound { w with tm := w.tm.active_remove t, phase := update w.phase t q } := by
  refine h.move hp hn (by rintro rfl; exact hop) rfl (fun x => ?_) (fun x hx => rfl) ?_
  · change x ∈ w.tm.active_txns.erase t ↔ _
    rw [mem_erase]
    split
    · next hx => exact iff_of_false (fun h => h.1 hx) (by cases q <;> simp_all)
    · next hx => exact and_iff_right hx
  intro hcase
  refine h.aborted t (.inl (hp.trans ?_))
  cases p <;> rcases hcase with rfl | rfl <;> simp_all

theorem begin (hstep : w.step .begin = some w') : w'.Sound := by
  obtain ⟨hlt, ⟨⟩⟩ := Option.ite_none_right_eq_some.mp hstep
  have hmem : ∀ x, x ∈ w.tm.active_txns.insert w.tm.next_txn_id
      (minOr w.tm.active_txns.keys w.tm.next_txn_id) ↔
      x = w.tm.next_txn_id ∨ x ∈ w.tm.active_txns := fun x => mem_insert _
  refine ⟨Nat.succ_pos _, hlt, fun x => ?_, fun x hx => ?_, fun x hx => ?_, fun hold hm => ?_⟩
  · change x ∈ w.tm.active_txns.insert _ _ ↔ (update w.phase w.tm.next_txn_id _ x).Open
    rw [hmem, update_apply]
    split
    · next hx => exact iff_of_true (.inl hx) trivial
    · next hx => exact (or_iff_right hx).trans (h.active x)
  · change 0 < x ∧ x < w.tm.next_txn_id + 1
    change update w.phase w.tm.next_txn_id _ x ≠ _ at hx
    rw [update_apply] at hx
    split at hx
    · next heq =>
      subst heq
      exact ⟨h.next_pos, Nat.lt_succ_self _⟩
    have := h.issued x hx
    omega
  · change update w.phase w.tm.next_txn_id _ x = _ ∨
      update w.phase w.tm.next_txn_id _ x = _ at hx
    rw [update_apply] at hx
    split at hx
    · rcases hx with hx | hx <;> cases hx
    · exact h.aborted x hx
  rcases mem_cons.mp hm with rfl | hm
  · refine ⟨le_rfl, fun x hx _ ha => ?_⟩
    change x ∉ (w.tm.active_txns.insert _ _).keys at ha
    rw [← AList.mem_keys, hmem, not_or] at ha
    change (update w.phase w.tm.next_txn_id _ x).Settled
    change update w.phase w.tm.next_txn_id _ x ≠ _ at hx
    rw [update_of_ne ha.1] at hx ⊢
    exact h.settled_of_not_active hx ha.2
  obtain ⟨hle, hsettled⟩ := h.bounded hold hm
  refine ⟨hle.trans (Nat.le_succ _), fun x hx hxlt ha => ?_⟩
  have hne : x ≠ w.tm.next_txn_id := by omega
  change (update w.phase w.tm.next_txn_id _ x).Settled
  change update w.phase w.tm.next_txn_id _ x ≠ _ at hx
  rw [update_of_ne hne] at hx ⊢
  exact hsettled x hx hxlt ha

theorem read_snapshot (hstep : w.step .read_snapshot = some w') : w'.Sound := by
  obtain rfl := read_snapshot_eq_some hstep
  refine { h with bounded := fun hold hm => ?_ }
  rcases mem_cons.mp hm with rfl | hm
  · refine ⟨le_rfl, fun x hx _ ha => h.settled_of_not_active hx fun hmem => ?_⟩
    exact ha (AList.mem_keys.mp hmem)
  · exact h.bounded hold hm

theorem end_read {token : Nat} (hstep : w.step (.end_read token) = some w') : w'.Sound := by
  cases hstep
  exact { h with }

end Sound

/-- Every step of the transactions keeps what holds of them. -/
theorem sound_step (h : w.Sound) (hstep : w.step e = some w') :
    w'.Sound := by
  cases e with
  | begin => exact h.begin hstep
  | read_snapshot => exact h.read_snapshot hstep
  | end_read token => exact h.end_read hstep
  | begin_clog t | commit_clog t =>
    obtain ⟨hp, rfl⟩ := move_eq_some hstep
    exact h.clog_insert hp trivial trivial trivial nofun
  | abort_clog t =>
    obtain ⟨hp, rfl⟩ := move_eq_some hstep
    exact h.clog_insert hp trivial trivial trivial fun _ => rfl
  | commit_active t | abort_active t =>
    obtain ⟨hp, rfl⟩ := move_eq_some hstep
    exact h.active_remove hp trivial trivial trivial

/-- Holders stay good when ids and tokens only grow and no entry of an issued id or token is new. -/
theorem HolderGood.mono {h : Holder} (hg : w.HolderGood h)
    (hnext : w.tm.next_txn_id ≤ w'.tm.next_txn_id)
    (htoken : w.tm.next_reader_token ≤ w'.tm.next_reader_token)
    (hactive : ∀ t m, t < w.tm.next_txn_id → w'.tm.active_txns.lookup t = some m →
      w.tm.active_txns.lookup t = some m)
    (hreaders : ∀ k m, k < w.tm.next_reader_token → w'.tm.readers.lookup k = some m →
      w.tm.readers.lookup k = some m) : w'.HolderGood h where
  __ := hg
  registered := by
    have hr := hg.registered
    unfold Registered at hr ⊢
    cases htok : h.token with
    | none =>
      simp only [htok] at hr ⊢
      obtain ⟨h0, h1, h2, h3⟩ := hr
      exact ⟨h0, by omega, h2, fun m hm => h3 m (hactive _ m h1 hm)⟩
    | some k =>
      simp only [htok] at hr ⊢
      obtain ⟨h0, h1, h2⟩ := hr
      exact ⟨h0, by omega, fun m hm => h2 m (hreaders k m h1 hm)⟩

section

variable (hg : w.Good)

include hg

theorem Good.born (t : Nat) : w.phase t = .unborn ↔ t = 0 ∨ w.tm.next_txn_id ≤ t := by
  refine ⟨hg.fresh t, fun ht => ?_⟩
  by_contra hb
  have := hg.issued t hb
  omega

theorem Good.active_lt (h : t ∈ w.tm.active_txns) : t < w.tm.next_txn_id := by
  refine (hg.issued t fun hu => ?_).2
  rw [hg.active, hu] at h
  exact h

theorem Good.fresh_update (hq : q ≠ .unborn) (x : Nat) (hx : update w.phase t q x = .unborn) :
    x = 0 ∨ w.tm.next_txn_id ≤ x := by
  rw [update_apply] at hx
  split at hx
  · exact absurd hx hq
  · exact hg.fresh x hx

/-- A manager call that writes one CLOG entry for an open transaction. -/
theorem good_clog_insert {status : TransactionStatus} (hp : w.phase t = p) (hn : p.Next q)
    (hop : p.Open) (hoq : q.Open) (hc : q.clog = some status) :
    Good { w with tm := w.tm.clog_insert t status, phase := update w.phase t q } where
  __ := hg.toSound.clog_insert hp hn hop hoq (by rintro rfl; exact (Option.some.inj hc).symm)
  __ := hg
  fresh := hg.fresh_update (by rintro rfl; simp at hoq)
  clog x := by
    simp only [clog_insert, lookup_insert_eq_ite]
    split
    · next hx => subst hx; rw [update_self, hc]
    · next hx => rw [update_of_ne hx]; exact hg.clog x
  holder h hm :=
    (hg.holder h hm).mono le_rfl le_rfl (fun _ _ _ h => h) (fun _ _ _ h => h)

/-- A manager call that takes a transaction out of the active set. -/
theorem good_active_remove (hp : w.phase t = p) (hn : p.Next q) (hop : p.Open) (hsq : q.Settled)
    (hc : q.clog = p.clog) :
    Good { w with tm := w.tm.active_remove t, phase := update w.phase t q } where
  __ := hg.toSound.active_remove hp hn hop hsq
  __ := hg
  fresh := hg.fresh_update (by rintro rfl; simp at hsq)
  clog x := by
    simp only [active_remove]
    by_cases hx : x = t
    · subst hx; rw [update_self, hc, ← hp]; exact hg.clog x
    · rw [update_of_ne hx]; exact hg.clog x
  active_le x m hm := hg.active_le x m (lookup_of_lookup_erase hm)
  holder h hm := (hg.holder h hm).mono le_rfl le_rfl (fun _ _ _ => lookup_of_lookup_erase)
    (fun _ _ _ h => h)

theorem good_end_read {token : Nat} : Good { w with tm := w.tm.end_read token } where
  __ := hg
  reader_le k m hm := hg.reader_le k m (lookup_of_lookup_erase hm)
  reader_lt k hk := hg.reader_lt k (mem_erase.mp hk).2
  holder h hm := (hg.holder h hm).mono le_rfl le_rfl (fun _ _ _ h => h)
    (fun _ _ _ => lookup_of_lookup_erase)

/-- What is issued and not active is settled. -/
theorem snapshot_settled (h0 : x ≠ 0) (hx : x < w.tm.next_txn_id) (ha : x ∉ w.tm.active_txns) :
    (w.phase x).Settled := by
  refine hg.toSound.settled_of_not_active (fun hu => ?_) ha
  rcases hg.fresh x hu with h | h
  · exact h0 h
  · omega

/-- What a holder's snapshot calls settled is settled. -/
theorem Good.settled {h : Holder} (hm : h ∈ w.holders) (h0 : x ≠ 0) (hx : x < h.txn.snapshot.xmax)
    (ha : x ∉ h.txn.snapshot.active) : (w.phase x).Settled := by
  obtain ⟨hle, hsettled⟩ := hg.bounded h hm
  refine hsettled x (fun hu => ?_) hx ha
  rcases hg.fresh x hu with h | h
  · exact h0 h
  · omega

theorem Good.min_active_le : minOr w.tm.active_txns.keys w.tm.next_txn_id ≤ w.tm.next_txn_id :=
  minOr_le_default fun _ hx => (hg.active_lt (mem_keys.mpr hx)).le

theorem good_read_snapshot (h : w.step .read_snapshot = some w') : w'.Good := by
  have hmin := hg.min_active_le
  have hs := hg.toSound.read_snapshot h
  obtain rfl := read_snapshot_eq_some h
  simp only [get_snapshot]
  refine { hs, hg with reader_le := ?_, reader_lt := ?_, holder := ?_, unique := ?_ }
  · intro k m hm
    simp only [lookup_insert_eq_ite] at hm
    split at hm
    · cases hm; exact hmin
    · exact hg.reader_le k m hm
  · intro k hk
    rcases (mem_insert _).mp hk with rfl | hk
    · simp
    have := hg.reader_lt k hk
    simp only; omega
  · intro h hm
    rcases mem_cons.mp hm with rfl | hm
    · refine ⟨hmin, fun x hx => minOr_le_of_mem hx, rfl, Nat.lt_succ_self _, fun m hlook => ?_⟩
      simpa [lookup_insert_eq_ite] using hlook.symm
    refine (hg.holder h hm).mono le_rfl (Nat.le_succ _) (fun _ _ _ h => h) fun k m hk hlook => ?_
    simpa [lookup_insert_eq_ite, show k ≠ w.tm.next_reader_token by omega] using hlook
  intro h hm h' hm' ht ht' hid
  rcases mem_cons.mp hm with rfl | hm
  · simp at ht
  rcases mem_cons.mp hm' with rfl | hm'
  · simp at ht'
  exact hg.unique h hm h' hm' ht ht' hid

theorem good_begin (h : w.step .begin = some w') : w'.Good := by
  have hmin := hg.min_active_le
  have hs := hg.toSound.begin h
  obtain ⟨hlt, ⟨⟩⟩ := Option.ite_none_right_eq_some.mp h
  simp only at hs ⊢
  refine { hs, hg with
    fresh := ?_, clog := ?_, active_le := ?_, reader_le := ?_, holder := ?_, unique := ?_ }
  · intro x hx
    have := hg.fresh_update (by simp) x hx
    have hpos := hg.next_pos
    by_cases hxn : x = w.tm.next_txn_id
    · subst hxn
      simp at hx
    simp only
    omega
  · intro x
    by_cases hx : x = w.tm.next_txn_id
    · subst hx
      have hc := hg.clog w.tm.next_txn_id
      rw [(hg.born _).mpr (.inr le_rfl)] at hc
      simp only [update_self]
      exact hc
    · simpa only [update_of_ne hx] using hg.clog x
  · intro x m hm
    simp only [lookup_insert_eq_ite] at hm
    split at hm
    · next hx => cases hm; exact hx ▸ hmin
    · exact hg.active_le x m hm
  · intro k m hm
    exact (hg.reader_le k m hm).trans (Nat.le_succ _)
  · intro h hm
    rcases mem_cons.mp hm with rfl | hm
    · refine ⟨hmin.trans (Nat.le_succ _), fun x hx => ?_, hg.next_pos, Nat.lt_succ_self _,
        mem_keys.mp ((mem_insert _).mpr (.inl rfl)), fun m hlook => ?_⟩
      · rcases (mem_insert _).mp (mem_keys.mpr hx) with rfl | hx
        · exact hmin
        · exact minOr_le_of_mem (mem_keys.mp hx)
      simpa [lookup_insert_eq_ite] using hlook.symm
    refine (hg.holder h hm).mono (Nat.le_succ _) le_rfl (fun x m hx hlook => ?_) (fun _ _ _ h => h)
    simpa [lookup_insert_eq_ite, show x ≠ w.tm.next_txn_id by omega] using hlook
  -- The new id was not issued before, so no older holder has it.
  have hold : ∀ g ∈ w.holders, g.token = none → g.txn.txn_id ≠ w.tm.next_txn_id := by
    intro g hm ht
    have hr := (hg.holder g hm).registered
    simp only [Registered, ht] at hr
    omega
  intro h hm h' hm' ht ht' hid
  rcases mem_cons.mp hm with rfl | hm
  · rcases mem_cons.mp hm' with rfl | hm'
    · rfl
    · exact absurd hid.symm (hold h' hm' ht')
  rcases mem_cons.mp hm' with rfl | hm'
  · exact absurd hid (hold h hm ht)
  · exact hg.unique h hm h' hm' ht ht' hid

theorem good_step (h : w.step e = some w') : w'.Good := by
  cases e with
  | begin => exact good_begin hg h
  | read_snapshot => exact good_read_snapshot hg h
  | end_read token => cases h; exact good_end_read hg
  | begin_clog t | commit_clog t | abort_clog t =>
    obtain ⟨hp, rfl⟩ := move_eq_some h
    exact good_clog_insert hg hp trivial trivial trivial rfl
  | commit_active t | abort_active t =>
    obtain ⟨hp, rfl⟩ := move_eq_some h
    exact good_active_remove hg hp trivial trivial trivial rfl

theorem Good.holder_id_ne_zero {h : Holder} (hm : h ∈ w.holders) : h.txn.txn_id ≠ 0 := by
  have hr := (hg.holder h hm).registered
  cases htok : h.token with
  | none => simp only [Registered, htok] at hr; omega
  | some token => simp only [Registered, htok] at hr; rw [hr.1]; decide

/-- A step that takes a snapshot takes the active set and the next id as they are after
it. It gives the snapshot to a transaction with no CLOG entry yet, or to a reader, whose
id no transaction has. -/
theorem taken {h : Holder} (hs : w.step e = some w') (hnew : h ∉ w.holders) (hm : h ∈ w'.holders) :
    h.txn.snapshot.xmax = w'.tm.next_txn_id ∧ h.txn.snapshot.active = w'.tm.active_txns.keys ∧
      (w'.phase h.txn.txn_id).clog = none := by
  have hmove : ∀ t p q tm, w.move t p q tm = some w' → False := by
    intro t p q tm hmv
    obtain ⟨_, rfl⟩ := move_eq_some hmv
    exact hnew hm
  cases e with
  | begin =>
    simp only [step, begin_active] at hs
    split at hs <;> cases hs
    rcases mem_cons.mp hm with rfl | hm
    · simp
    · exact absurd hm hnew
  | read_snapshot =>
    have hu : w.phase u64Max = .unborn := (hg.born _).mpr (.inr hg.next_le)
    obtain rfl := read_snapshot_eq_some hs
    rcases mem_cons.mp hm with rfl | hm
    · exact ⟨rfl, rfl, by simp only [hu, Phase.clog]⟩
    · exact absurd hm hnew
  | end_read token => cases hs; exact absurd hm hnew
  | begin_clog t | commit_clog t | commit_active t | abort_clog t | abort_active t =>
    exact (hmove _ _ _ _ hs).elim

/-- A snapshot that is no longer counted is never counted again. -/
theorem live_of_live_step {h : Holder} (hs : w.step e = some w') (hm : h ∈ w.holders)
    (hl : w'.Live h) : w.Live h := by
  have hr := (hg.holder h hm).registered
  have hmove : ∀ t p q tm, w.move t p q tm = some w' →
      (∀ x, x ∈ tm.active_txns → x ∈ w.tm.active_txns) → tm.readers = w.tm.readers →
      w.Live h := by
    intro t p q tm hmv ha hrd
    obtain ⟨_, rfl⟩ := move_eq_some hmv
    unfold Live at hl ⊢
    cases htok : h.token with
    | none => simp only [htok] at hl; exact ha _ hl
    | some token => simp only [htok] at hl; exact hrd ▸ hl
  have herase : ∀ t x, x ∈ (w.tm.active_remove t).active_txns → x ∈ w.tm.active_txns :=
    fun t x hx => (mem_erase.mp hx).2
  cases e with
  | begin =>
    simp only [step, begin_active] at hs
    split at hs <;> cases hs
    unfold Live at hl ⊢
    cases htok : h.token with
    | none =>
      simp only [htok, Registered, mem_insert] at hl hr ⊢
      exact hl.resolve_left (by omega)
    | some token => simpa only [htok] using hl
  | read_snapshot =>
    obtain rfl := read_snapshot_eq_some hs
    unfold Live at hl ⊢
    cases htok : h.token with
    | none => simpa only [htok] using hl
    | some token =>
      simp only [htok, Registered, mem_insert] at hl hr ⊢
      exact hl.resolve_left (by omega)
  | end_read token =>
    cases hs
    unfold Live at hl ⊢
    cases htok : h.token with
    | none => simp only [htok] at hl ⊢; exact hl
    | some token =>
      simp only [htok] at hl ⊢
      exact (mem_erase.mp hl).2
  | begin_clog t | commit_clog t | abort_clog t => exact hmove _ _ _ _ hs (fun _ h => h) rfl
  | commit_active t | abort_active t => exact hmove _ _ _ _ hs (herase t) rfl

/-! ## The horizon -/

theorem Good.global_xmin_le : w.tm.global_xmin ≤ w.tm.next_txn_id := by
  refine global_xmin_le_next (fun t m ht => ?_) hg.reader_le
  exact (hg.active_le t m ht).trans (hg.active_lt (mem_of_lookup_eq_some ht)).le

/-- Every transaction below the horizon is settled. -/
theorem settled_of_lt_global_xmin (h0 : x ≠ 0) (hx : x < w.tm.global_xmin) :
    (w.phase x).Settled := by
  have hle := hg.global_xmin_le
  refine snapshot_settled hg h0 (by omega) fun hact => ?_
  obtain ⟨m, hm⟩ := exists_lookup_of_mem hact
  have hmx := hg.active_le x m hm
  have hmin := global_xmin_le_of_active hm
  omega

theorem global_xmin_le_of_live {h : Holder} (hm : h ∈ w.holders) (hl : w.Live h) :
    w.tm.global_xmin ≤ h.txn.snapshot.xmin := by
  have hr := (hg.holder h hm).registered
  unfold Live at hl
  cases htok : h.token with
  | none =>
    simp only [htok, Registered] at hl hr
    obtain ⟨m, hlook⟩ := exists_lookup_of_mem hl
    obtain rfl := hr.2.2.2 m hlook
    exact global_xmin_le_of_active hlook
  | some token =>
    simp only [htok, Registered] at hl hr
    obtain ⟨m, hlook⟩ := exists_lookup_of_mem hl
    obtain rfl := hr.2.2 m hlook
    exact global_xmin_le_of_reader hlook

end

theorem Good.global_xmin_le_snapshot (hg : w.Good) :
    w.tm.global_xmin ≤ minOr w.tm.active_txns.keys w.tm.next_txn_id := by
  refine le_minOr (fun t ht => ?_) hg.global_xmin_le
  obtain ⟨m, hm⟩ := exists_lookup_of_mem (mem_keys.mp ht)
  exact (global_xmin_le_of_active hm).trans (hg.active_le t m hm)

/-- The horizon never moves back. -/
theorem global_xmin_le_step (hg : w.Good) (h : w.step e = some w') :
    w.tm.global_xmin ≤ w'.tm.global_xmin := by
  have hmove : ∀ t p q tm, w.move t p q tm = some w' →
      (∀ x m, tm.active_txns.lookup x = some m → w.tm.active_txns.lookup x = some m) →
      tm.readers = w.tm.readers → tm.next_txn_id = w.tm.next_txn_id →
      w.tm.global_xmin ≤ w'.tm.global_xmin := by
    intro t p q tm hmv ha hr hn
    obtain ⟨_, rfl⟩ := move_eq_some hmv
    refine le_global_xmin (fun x m hm => global_xmin_le_of_active (ha x m hm)) ?_ ?_
    · intro k m hm
      exact global_xmin_le_of_reader (k := k) (by rw [← hr]; exact hm)
    · exact hg.global_xmin_le.trans_eq hn.symm
  cases e with
  | begin =>
    simp only [step, begin_active] at h
    split at h <;> cases h
    have hle := hg.global_xmin_le
    refine le_global_xmin (fun t m hm => ?_) (fun k m hm => global_xmin_le_of_reader hm) ?_
    · simp only [lookup_insert_eq_ite] at hm
      split at hm
      · cases hm
        exact hg.global_xmin_le_snapshot
      · exact global_xmin_le_of_active hm
    simp only
    omega
  | read_snapshot =>
    obtain rfl := read_snapshot_eq_some h
    refine le_global_xmin (fun t m hm => global_xmin_le_of_active hm) (fun k m hm => ?_)
      hg.global_xmin_le
    simp only [lookup_insert_eq_ite] at hm
    split at hm
    · cases hm
      exact hg.global_xmin_le_snapshot
    · exact global_xmin_le_of_reader hm
  | end_read token =>
    cases h
    exact le_global_xmin (fun t m hm => global_xmin_le_of_active hm)
      (fun k m hm => global_xmin_le_of_reader (lookup_of_lookup_erase hm)) hg.global_xmin_le
  | begin_clog t | commit_clog t | abort_clog t => exact hmove _ _ _ _ h (fun _ _ h => h) rfl rfl
  | commit_active t | abort_active t =>
    exact hmove _ _ _ _ h (fun _ _ => lookup_of_lookup_erase) rfl rfl

/-! ## What stays as it is -/

/-- The second state comes later: phases have moved forward and no holder is forgotten. -/
structure Later (w w' : Txns) : Prop where
  phase : ∀ x, (w.phase x).Reaches (w'.phase x)
  holders : ∀ h ∈ w.holders, h ∈ w'.holders

theorem Later.refl (w : Txns) : w.Later w := ⟨fun _ => .refl, fun _ h => h⟩

theorem Later.trans {w'' : Txns} (h : w.Later w') (h' : w'.Later w'') : w.Later w'' :=
  ⟨fun x => (h.phase x).trans (h'.phase x), fun g hg => h'.holders g (h.holders g hg)⟩

theorem later_of_move {tm : TransactionManager} (hn : p.Next q) (h : w.move t p q tm = some w') :
    w.Later w' := by
  obtain ⟨hp, rfl⟩ := move_eq_some h
  refine ⟨fun x => ?_, fun _ h => h⟩
  by_cases hx : x = t
  · subst hx; simp only [update_self, hp]; exact .single hn
  · simp only [update_of_ne hx]; exact .refl

theorem later_step (hg : w.Good) (h : w.step e = some w') : w.Later w' := by
  cases e with
  | begin =>
    simp only [step, begin_active] at h
    split at h <;> cases h
    refine ⟨fun x => ?_, fun _ h => mem_cons_of_mem _ h⟩
    by_cases hx : x = w.tm.next_txn_id
    · have hu : w.phase x = .unborn := (hg.born x).mpr (.inr hx.ge)
      subst hx
      simp only [update_self, hu]
      exact .single trivial
    · simp only [update_of_ne hx]; exact .refl
  | read_snapshot =>
    obtain rfl := read_snapshot_eq_some h
    exact ⟨fun _ => .refl, fun _ h => mem_cons_of_mem _ h⟩
  | end_read token => cases h; exact ⟨fun _ => .refl, fun _ h => h⟩
  | begin_clog t | commit_clog t | abort_clog t | commit_active t | abort_active t =>
    exact later_of_move (by trivial) h

theorem Good.is_aborted_iff (hg : w.Good) (x : Nat) :
    w.tm.is_aborted x = true ↔ w.phase x = .aborting ∨ w.phase x = .aborted := by
  rw [FluxDB.is_aborted_iff, hg.clog]
  cases w.phase x <;> simp

theorem Good.is_committed_iff (hg : w.Good) (h0 : x ≠ 0) :
    w.tm.is_committed x = true ↔ w.phase x = .committing ∨ w.phase x = .committed := by
  rw [FluxDB.is_committed_iff, hg.clog]
  cases w.phase x <;> simp [h0]

/-- A holder sees the transactions that were committed, and out of the active set, when
its snapshot was taken. -/
theorem Good.sees_iff (hg : w.Good) {h : Holder} (hm : h ∈ w.holders) (x : Nat) :
    h.txn.snapshot.is_committed x w.tm = true ↔
      x = 0 ∨ (x < h.txn.snapshot.xmax ∧ x ∉ h.txn.snapshot.active ∧ w.phase x = .committed) := by
  rw [snapshot_is_committed_iff]
  refine or_congr_right' fun h0 => and_congr_right fun hx => and_congr_right fun ha => ?_
  have hs := hg.settled hm h0 hx ha
  have hab := hg.is_aborted_iff x
  cases hp : w.phase x <;> simp_all

/-- What a snapshot sees never changes. -/
theorem sees_stable (hg : w.Good) (hg' : w'.Good) (hl : w.Later w') {h : Holder}
    (hm : h ∈ w.holders) (x : Nat) :
    h.txn.snapshot.is_committed x w'.tm = h.txn.snapshot.is_committed x w.tm := by
  rw [Bool.eq_iff_iff, hg.sees_iff hm, hg'.sees_iff (hl.holders h hm)]
  refine or_congr_right' fun h0 => and_congr_right fun hx => and_congr_right fun ha => ?_
  rw [(hl.phase x).eq_of_settled (hg.settled hm h0 hx ha)]

end Txns

end FluxDB
