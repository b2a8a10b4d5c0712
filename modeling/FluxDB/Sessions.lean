-- Transactions that insert, update and delete rows, in any interleaving. A check and the
-- write it allows are one step, as under a leaf latch. An update stamps the old version
-- in one step and writes the new one in a later step, or fails before it.
import FluxDB.VersionStore

namespace FluxDB

open Function

/-- The store, and for each transaction the row of an update whose old version is stamped
and whose new version is not written yet. -/
structure Sessions (K V : Type*) where
  store : Store K V
  pending : Nat → Option (K × V)

inductive SessionEvent (K V : Type*)
  | txn (e : TxnEvent)
  | insert (txn : Transaction) (key : K) (val : V)
  | delete (txn : Transaction) (slot : Nat)
  | update (txn : Transaction) (slot : Nat) (val : V)
  | update_insert (t : Nat)
  | update_fail (t : Nat)

/-- The transaction that the call commits or aborts. -/
def TxnEvent.ends : TxnEvent → Option Nat
  | .commit_clog t | .abort_clog t => some t
  | _ => none

namespace Sessions

variable {K V : Type*}

def new : Sessions K V where
  store := .new
  pending := fun _ => none

abbrev versions (w : Sessions K V) : List (Version K V) := w.store.versions

abbrev tm (w : Sessions K V) : TransactionManager := w.store.tm

/-- The stamps of the stored versions of the key, in order of their creation. -/
def stampsOf [DecidableEq K] (w : Sessions K V) (key : K) : List (Nat × Nat) :=
  (w.versions.filter fun v => v.key = key).map fun v => (v.xmin, v.xmax)

/-- The transaction can start an operation: it runs none now. -/
def Idle (w : Sessions K V) (txn : Transaction) : Prop :=
  w.store.Running txn ∧ (w.pending txn.txn_id).isNone

instance (w : Sessions K V) (txn : Transaction) : Decidable (w.Idle txn) :=
  inferInstanceAs (Decidable (_ ∧ _))

/-- The version in the slot, when the transaction sees it and no conflict forbids the
stamp. The outer `none` says that the slot cannot be the one the search found. -/
def claim (w : Sessions K V) (txn : Transaction) (slot : Nat) :
    Option (Except IndexError (Version K V)) :=
  match w.versions[slot]? with
  | some v =>
    if txn.is_visible v.xmin v.xmax w.tm then
      some ((check_write_conflict w.tm txn v.xmax).map fun _ => v)
    else none
  | none => none

/-- One step of one session. An operation that fails its check changes nothing: its
caller gets the error, or waits and takes the step again. -/
def step [DecidableEq K] (w : Sessions K V) : SessionEvent K V → Option (Sessions K V)
  | .txn e =>
    if e.ends.all fun t => (w.pending t).isNone then
      (w.store.step (.txn e)).map fun store => { w with store }
    else none
  | .insert txn key val =>
    if w.Idle txn then
      match check_insert_conflict w.tm txn (w.stampsOf key) with
      | .ok _ => some { w with store := w.store.put_version txn.txn_id key val }
      | .error _ => some w
    else none
  | .delete txn slot =>
    if w.Idle txn then
      match w.claim txn slot with
      | some (.ok v) => some { w with store := w.store.put_stamp txn.txn_id slot v }
      | some (.error _) => some w
      | none => none
    else none
  | .update txn slot val =>
    if w.Idle txn then
      match w.claim txn slot with
      | some (.ok v) =>
        some { store := w.store.put_stamp txn.txn_id slot v
               pending := update w.pending txn.txn_id (some (v.key, val)) }
      | some (.error _) => some w
      | none => none
    else none
  | .update_insert t =>
    match w.pending t with
    | some (key, val) =>
      some { store := w.store.put_version t key val
             pending := update w.pending t none }
    | none => none
  | .update_fail t =>
    match w.pending t with
    | some _ => some { w with pending := update w.pending t none }
    | none => none

/-! ## What a step can do -/

/-- The steps of a session, by what they write. -/
inductive StepKind [DecidableEq K] (w w' : Sessions K V) : SessionEvent K V → Prop
  | txn {e : TxnEvent} (txns : Txns) (h : w.store.txns.step e = some txns)
      (hp : ∀ t, e.ends = some t → w.pending t = none)
      (eq : w' = { w with store := { w.store with txns } }) : StepKind w w' (.txn e)
  | insert {txn : Transaction} {key : K} {val : V} (hi : w.Idle txn)
      (hok : check_insert_conflict w.tm txn (w.stampsOf key) = .ok ())
      (eq : w' = { w with store := w.store.put_version txn.txn_id key val }) :
      StepKind w w' (.insert txn key val)
  | stamp {e : SessionEvent K V} (txn : Transaction) (slot : Nat) (v : Version K V)
      (pending : Nat → Option (K × V)) (hi : w.Idle txn) (hv : w.versions[slot]? = some v)
      (hvis : txn.is_visible v.xmin v.xmax w.tm = true)
      (hx : v.xmax = 0 ∨ w.store.Aborted v.xmax)
      (hp : pending = w.pending ∨
        ∃ val, pending = update w.pending txn.txn_id (some (v.key, val)))
      (eq : w' = { store := w.store.put_stamp txn.txn_id slot v, pending }) : StepKind w w' e
  | update_insert {t : Nat} (key : K) (val : V) (hp : w.pending t = some (key, val))
      (eq : w' = { store := w.store.put_version t key val
                   pending := update w.pending t none }) :
      StepKind w w' (.update_insert t)
  | update_fail {t : Nat} (eq : w' = { w with pending := update w.pending t none }) :
      StepKind w w' (.update_fail t)
  | same {e : SessionEvent K V} (eq : w' = w) : StepKind w w' e

variable {w w' : Sessions K V} {e : SessionEvent K V}

/-- What an operation that claims a version has found. -/
theorem claim_eq_some_ok {txn : Transaction} {slot : Nat} {v : Version K V} (hg : w.store.Good)
    (h : w.claim txn slot = some (.ok v)) :
    w.versions[slot]? = some v ∧ txn.is_visible v.xmin v.xmax w.tm = true ∧
      (v.xmax = 0 ∨ w.store.Aborted v.xmax) := by
  unfold claim at h
  split at h
  swap
  · simp at h
  next u hu =>
  split at h
  swap
  · simp at h
  next hvis =>
  cases hok : check_write_conflict w.tm txn u.xmax with
  | error err => simp [hok, Except.map] at h
  | ok a =>
    simp only [hok, Except.map, Option.some.injEq, Except.ok.injEq] at h
    subst h
    refine ⟨hu, hvis, ?_⟩
    rcases check_write_conflict_ok_iff.mp hok with h0 | ht | ⟨_, ha⟩
    · exact .inl h0
    · exact absurd ht (transaction_is_visible_iff.mp hvis).1
    rw [Store.Aborted, Store.phase, ← hg.txns.clog]
    exact .inr (is_aborted_iff.mp ha)

theorem step_kind [DecidableEq K] (hg : w.store.Good) (h : w.step e = some w') :
    w.StepKind w' e := by
  cases e with
  | txn e =>
    simp only [step] at h
    split at h
    swap
    · simp at h
    next hp =>
    obtain ⟨store, hs, rfl⟩ := Option.map_eq_some_iff.mp h
    obtain ⟨txns, ht, rfl⟩ := Store.txn_eq_some hs
    refine .txn txns ht (fun t he => ?_) rfl
    simpa [he] using hp
  | insert txn key val =>
    simp only [step] at h
    split at h
    swap
    · simp at h
    next hi =>
    split at h
    · next hok => exact .insert hi hok (Option.some.inj h).symm
    · exact .same (Option.some.inj h).symm
  | delete txn slot =>
    simp only [step] at h
    split at h
    swap
    · simp at h
    next hi =>
    split at h
    · next v hc =>
      obtain ⟨hv, hvis, hx⟩ := claim_eq_some_ok hg hc
      exact .stamp txn slot v w.pending hi hv hvis hx (.inl rfl) (Option.some.inj h).symm
    · exact .same (Option.some.inj h).symm
    · simp at h
  | update txn slot val =>
    simp only [step] at h
    split at h
    swap
    · simp at h
    next hi =>
    split at h
    · next v hc =>
      obtain ⟨hv, hvis, hx⟩ := claim_eq_some_ok hg hc
      exact .stamp txn slot v _ hi hv hvis hx (.inr ⟨val, rfl⟩) (Option.some.inj h).symm
    · exact .same (Option.some.inj h).symm
    · simp at h
  | update_insert t =>
    simp only [step] at h
    split at h
    · next key val hp => exact .update_insert key val hp (Option.some.inj h).symm
    · simp at h
  | update_fail t =>
    simp only [step] at h
    split at h
    · exact .update_fail (Option.some.inj h).symm
    · simp at h

/-! ## Every run is a run of the store -/

/-- The store is good, and only running transactions have an update in progress. -/
structure Good (w : Sessions K V) : Prop where
  store : w.store.Good
  pending : ∀ t, w.pending t ≠ none → w.store.phase t = .running

theorem good_new : (new : Sessions K V).Good := ⟨Store.good_new, fun _ h => absurd rfl h⟩

/-- A step of a session is one step of the store, or leaves the store as it is. -/
theorem store_step [DecidableEq K] (hg : w.Good) (h : w.step e = some w') :
    w'.store = w.store ∨ ∃ e', w.store.step e' = some w'.store := by
  cases step_kind hg.store h with
  | @txn e txns ht hp eq => subst eq; exact .inr ⟨.txn e, by simp [Store.step, ht]⟩
  | @insert txn key val hi hok eq =>
    subst eq
    exact .inr ⟨.create txn.txn_id key val, by simp [Store.step, hi.1.2]⟩
  | stamp txn slot v pending hi hv hvis hx hp eq =>
    subst eq
    have hok : check_write_conflict w.tm txn v.xmax = .ok () := by
      refine check_write_conflict_ok_iff.mpr (hx.imp_right fun ha => .inr ?_)
      have hab : w.tm.is_aborted v.xmax = true := by
        rw [is_aborted_iff, hg.store.txns.clog]; exact ha
      refine ⟨?_, hab⟩
      rw [Bool.eq_false_iff, ne_eq, snapshot_is_in_progress_iff]
      simp [hab]
    have hv' : w.store.versions[slot]? = some v := hv
    exact .inr ⟨.stamp txn slot, by simp [Store.step, hi.1, hv', hok]⟩
  | @update_insert t key val hp eq =>
    subst eq
    have hr := hg.pending t (by simp [hp])
    exact .inr ⟨.create t key val, by simp [Store.step, hr]⟩
  | update_fail eq | same eq => subst eq; exact .inl rfl

theorem running_of_txn_step {w w' : Txns} {e : TxnEvent} {t : Nat} (hg : w.Good)
    (h : w.step e = some w') (hr : w.phase t = .running) (he : e.ends ≠ some t) :
    w'.phase t = .running := by
  have hmove : ∀ x p q tm, w.move x p q tm = some w' → p ≠ .running → w'.phase t = .running := by
    intro x p q tm hmv hp
    obtain ⟨hx, rfl⟩ := Txns.move_eq_some hmv
    have hne : t ≠ x := by rintro rfl; exact hp (hx.symm.trans hr)
    simpa [update_of_ne hne] using hr
  have hend : ∀ x q tm, w.move x .running q tm = some w' → x ≠ t → w'.phase t = .running := by
    intro x q tm hmv hne
    obtain ⟨_, rfl⟩ := Txns.move_eq_some hmv
    simpa [update_of_ne (Ne.symm hne)] using hr
  cases e with
  | begin =>
    simp only [Txns.step, TransactionManager.begin_active] at h
    split at h <;> cases h
    have hne : t ≠ w.tm.next_txn_id := by
      rintro rfl
      rw [(hg.born _).mpr (.inr le_rfl)] at hr
      cases hr
    simpa [update_of_ne hne] using hr
  | read_snapshot =>
    obtain rfl := Txns.read_snapshot_eq_some h
    exact hr
  | end_read token => cases h; exact hr
  | begin_clog x | commit_active x | abort_active x => exact hmove _ _ _ _ h (by simp)
  | commit_clog x | abort_clog x => exact hend _ _ _ h fun hx => he (by simp [TxnEvent.ends, hx])

theorem not_aborted_of_committed (hg : w.Good) {t : Nat} (h0 : t ≠ 0)
    (hc : w.tm.is_committed t = true) : ¬ w.store.Aborted t := by
  intro ha
  rcases (hg.store.txns.is_committed_iff h0).mp hc with hp | hp <;>
    simp [Store.Aborted, hp] at ha

section Runs

variable [DecidableEq K]

theorem good_step (hg : w.Good) (h : w.step e = some w') : w'.Good := by
  refine ⟨?_, ?_⟩
  · rcases store_step hg h with he | ⟨e', he⟩
    · exact he ▸ hg.store
    · exact Store.good_step hg.store he
  have hclear : ∀ (p : Nat → Option (K × V)) (t x : Nat), (update p t none) x ≠ none →
      p x ≠ none := by
    intro p t x hx
    by_cases he : x = t
    · simp [he] at hx
    · simpa [update_of_ne he] using hx
  intro x hx
  cases step_kind hg.store h with
  | @txn e txns ht hp eq =>
    subst eq
    exact running_of_txn_step hg.store.txns ht (hg.pending x hx) fun he => hx (hp x he)
  | insert hi hok eq | same eq => subst eq; exact hg.pending x hx
  | stamp txn slot v pending hi hv hvis hd hp eq =>
    subst eq
    rcases hp with rfl | ⟨val, rfl⟩
    · exact hg.pending x hx
    by_cases he : x = txn.txn_id
    · rw [he]; exact hi.1.2
    · exact hg.pending x (by simpa [update_of_ne he] using hx)
  | update_insert key val hp eq | update_fail eq => subst eq; exact hg.pending x (hclear _ _ x hx)

theorem later_step (hg : w.Good) (h : w.step e = some w') : w.store.Later w'.store := by
  rcases store_step hg h with he | ⟨e', he⟩
  · rw [he]; exact .refl _
  · exact Store.later_step hg.store he

theorem good_run {es : List (SessionEvent K V)} (h : Runs.run step new es = some w) : w.Good :=
  Runs.inv_run (fun _ _ _ => good_step) good_new h

theorem later_run {es : List (SessionEvent K V)} (hg : w.Good) (h : Runs.run step w es = some w') :
    w.store.Later w'.store :=
  Runs.rel_run (R := fun w w' => w.store.Later w'.store) (fun _ _ _ => good_step)
    (fun w => .refl w.store) (fun _ _ _ => Store.Later.trans) (fun _ _ _ => later_step) hg h

/-! ## No update is lost -/

/-- A stamp that is replaced was left by a transaction that has already aborted. -/
theorem aborted_of_xmax_changed {i : Nat} {v v' : Version K V} (hg : w.Good)
    (h : w.step e = some w') (hv : w.versions[i]? = some v) (hv' : w'.versions[i]? = some v')
    (h0 : v.xmax ≠ 0) (hne : v'.xmax ≠ v.xmax) : w.store.Aborted v.xmax := by
  have hsame : w'.versions[i]? = w.versions[i]? → w.store.Aborted v.xmax := by
    intro he
    rw [he, hv] at hv'
    cases hv'
    exact absurd rfl hne
  have hlt : i < w.versions.length := Maps.lt_of_getElem? hv
  cases step_kind hg.store h with
  | txn txns ht hp eq | update_fail eq | same eq => subst eq; exact hsame rfl
  | insert hi hok eq | update_insert key val hp eq =>
    subst eq
    exact hsame (by rw [versions, Store.put_version_getElem?, if_neg hlt.ne])
  | stamp txn slot u pending hi hu hvis hx hp eq =>
    subst eq
    by_cases he : i = slot
    · subst he
      rw [hv] at hu
      cases hu
      exact hx.resolve_left h0
    · exact hsame (by rw [versions, Store.put_stamp_getElem? _ hu, if_neg he])

/-- First writer wins. A stamp is replaced only after its transaction aborted; the stamp of
a transaction that commits, now or later, is never changed; and of the transactions that
stamped one version, at most one commits. -/
theorem no_update_is_lost {w : Sessions K V} {p : List (SessionEvent K V)}
    (h : Runs.run step new p = some w) :
    (∀ (e : SessionEvent K V) (w' : Sessions K V) (i : Nat) (v v' : Version K V),
      w.step e = some w' → w.versions[i]? = some v → w'.versions[i]? = some v' →
      v.xmax ≠ 0 → v'.xmax ≠ v.xmax → w.tm.is_aborted v.xmax = true) ∧
    (∀ (a b : List (SessionEvent K V)) (w₁ w₂ : Sessions K V) (i : Nat) (v : Version K V),
      Runs.run step w a = some w₁ → Runs.run step w₁ b = some w₂ →
      w.versions[i]? = some v → v.xmax ≠ 0 → w₂.tm.is_committed v.xmax = true →
      ∃ v₁, w₁.versions[i]? = some v₁ ∧ v₁.xmax = v.xmax) ∧
    (∀ t u i, (t, i) ∈ w.store.stamps → (u, i) ∈ w.store.stamps →
      w.tm.is_committed t = true → w.tm.is_committed u = true → t = u) := by
  have hg := good_run h
  refine ⟨?_, ?_, ?_⟩
  · intro e w' i v v' he hv hv' h0 hne
    rw [is_aborted_iff, hg.store.txns.clog]
    exact aborted_of_xmax_changed hg he hv hv' h0 hne
  · intro a b w₁ w₂ i v h1 h2 hv h0 hc
    have hg₁ : w₁.Good := Runs.inv_run (fun _ _ _ => good_step) hg h1
    have hg₂ : w₂.Good := Runs.inv_run (fun _ _ _ => good_step) hg₁ h2
    obtain ⟨v₁, hv₁, hvl⟩ := (later_run hg h1).versions i v hv
    refine ⟨v₁, hv₁, ?_⟩
    rcases hvl.xmax with he | ⟨h0' | ha, _⟩
    · exact he
    · exact absurd h0' h0
    · exact absurd ((later_run hg₁ h2).aborted ha) (not_aborted_of_committed hg₂ h0 hc)
  · intro t u i ht hu hct hcu
    have hstamp : ∀ x, (x, i) ∈ w.store.stamps → w.tm.is_committed x = true →
        ∃ v, w.versions[i]? = some v ∧ v.xmax = x := by
      intro x hx hc
      have h0 := hg.store.wrote_ne_zero (hg.store.stamper x i hx)
      obtain ⟨v, hv, he | ha⟩ := hg.store.stamped x i hx
      · exact ⟨v, hv, he⟩
      · exact absurd ha (not_aborted_of_committed hg h0 hc)
    obtain ⟨v, hv, rfl⟩ := hstamp t ht hct
    obtain ⟨v', hv', rfl⟩ := hstamp u hu hcu
    rw [hv] at hv'
    cases hv'
    rfl

end Runs

/-- The first transaction commits a row; the second deletes it while the third tries to. -/
def twoDeleters : List (SessionEvent Nat Nat) :=
  [.txn .begin, .txn (.begin_clog 1), .insert ⟨1, ⟨1, 2, [1]⟩⟩ 7 70, .txn (.commit_clog 1),
    .txn (.commit_active 1), .txn .begin, .txn (.begin_clog 2), .txn .begin, .txn (.begin_clog 3),
    .delete ⟨2, ⟨2, 3, [2]⟩⟩ 0, .delete ⟨3, ⟨2, 4, [3, 2]⟩⟩ 0, .txn (.commit_clog 2),
    .txn (.commit_active 2), .delete ⟨3, ⟨2, 4, [3, 2]⟩⟩ 0, .txn (.commit_clog 3),
    .txn (.commit_active 3)]

theorem only_the_first_deleter_stamps :
    ∃ w : Sessions Nat Nat, Runs.run step new twoDeleters = some w ∧
      w.versions = [⟨7, 70, 1, 2⟩] ∧ w.store.stamps = [(2, 0)] ∧
      ∀ t u i, (t, i) ∈ w.store.stamps → (u, i) ∈ w.store.stamps →
        w.tm.is_committed t = true → w.tm.is_committed u = true → t = u :=
  ⟨_, rfl, rfl, rfl, (no_update_is_lost (p := twoDeleters) rfl).2.2⟩

end Sessions

end FluxDB
