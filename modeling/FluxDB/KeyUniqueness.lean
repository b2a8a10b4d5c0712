-- Key uniqueness under snapshots. The insert check passes over versions whose creator
-- committed after the inserter's snapshot, so two live rows of one key can be stored.
-- In runs where no insert meets such a version, a snapshot shows at most one row of a key.
import FluxDB.Sessions
import FluxDB.SnapshotLaws

namespace FluxDB

open List Function Maps

variable {t : Nat} {txn : Transaction}

namespace Store

variable {K V : Type*}

/-! ## Versions that are out of the way -/

/-- The version is gone for good: its creator aborted, or its deleter committed and left
the active set. -/
def Gone (w : Store K V) (v : Version K V) : Prop :=
  w.Aborted v.xmin ∨ w.phase v.xmax = .committed

instance (w : Store K V) (v : Version K V) : Decidable (w.Gone v) :=
  inferInstanceAs (Decidable (_ ∨ _))

/-- Of two versions of a key one is gone, or one was deleted by the creator of the other. -/
def PairGood (w : Store K V) (v v' : Version K V) : Prop :=
  w.Gone v ∨ w.Gone v' ∨ v.xmax = v'.xmin ∨ v'.xmax = v.xmin

/-- Any two versions of one key are such a pair. -/
def PairsGood (w : Store K V) : Prop :=
  ∀ (i j : Nat) v v', i ≠ j → w.versions[i]? = some v → w.versions[j]? = some v' →
    v.key = v'.key → w.PairGood v v'

variable {w w' : Store K V} {v v' : Version K V}

theorem PairGood.symm (h : w.PairGood v v') : w.PairGood v' v := by
  rcases h with h | h | h | h
  · exact .inr (.inl h)
  · exact .inl h
  · exact .inr (.inr (.inr h))
  · exact .inr (.inr (.inl h))

theorem Gone.later (hg : w.Good) (hl : w.Later w') (hvl : w.VersionLater w' v v') (h : w.Gone v) :
    w'.Gone v' := by
  rcases h with ha | hp
  · exact .inl (hvl.xmin ▸ hl.aborted ha)
  have hp' : w'.phase v.xmax = .committed := by
    rw [phase, (hl.txns.phase v.xmax).eq_of_settled (by simp [hp])]
    exact hp
  rcases hvl.xmax with he | ⟨h0 | ha, _⟩
  · exact .inr (he ▸ hp')
  · rw [h0, phase, (hg.txns.born 0).mpr (.inl rfl)] at hp
    cases hp
  · simp [Aborted, hp'] at ha

/-- A version deleted by the creator of another stays so, unless that creator aborts. -/
theorem deleted_by_later {u u' : Version K V} (hg : w.Good) (hu : u ∈ w.versions)
    (hvl : w.VersionLater w' v v') (hul : w.VersionLater w' u u') (h : v.xmax = u.xmin) :
    v'.xmax = u'.xmin ∨ w'.Gone u' := by
  rcases hvl.xmax with he | ⟨h0 | ha, _⟩
  · exact .inl (by rw [he, h, hul.xmin])
  · exact absurd (h ▸ h0) (hg.wrote_ne_zero (hg.xmin u hu))
  · exact .inr (.inl (by rw [hul.xmin, ← h]; exact ha))

theorem PairGood.later {u u' : Version K V} (hg : w.Good) (hl : w.Later w') (hv : v ∈ w.versions)
    (hu : u ∈ w.versions) (hvl : w.VersionLater w' v v') (hul : w.VersionLater w' u u')
    (h : w.PairGood v u) : w'.PairGood v' u' := by
  rcases h with h | h | h | h
  · exact .inl (h.later hg hl hvl)
  · exact .inr (.inl (h.later hg hl hul))
  · rcases deleted_by_later hg hu hvl hul h with h | h
    · exact .inr (.inr (.inl h))
    · exact .inr (.inl h)
  rcases deleted_by_later hg hv hul hvl h with h | h
  · exact .inr (.inr (.inr h))
  · exact .inl h

/-- Pairs stay good over a step that adds no version. -/
theorem PairsGood.later (hg : w.Good) (hl : w.Later w')
    (hlen : ∀ (i : Nat) v, w'.versions[i]? = some v → ∃ u, w.versions[i]? = some u)
    (h : w.PairsGood) : w'.PairsGood := by
  intro i j v v' hij hv hv' hkey
  obtain ⟨u, hu⟩ := hlen i v hv
  obtain ⟨u', hu'⟩ := hlen j v' hv'
  obtain ⟨x, hx, hvl⟩ := hl.versions i u hu
  obtain ⟨x', hx', hvl'⟩ := hl.versions j u' hu'
  rw [hv] at hx
  cases hx
  rw [hv'] at hx'
  cases hx'
  exact (h i j u u' hij hu hu' (by rw [← hvl.key, ← hvl'.key]; exact hkey)).later hg hl
    (mem_of_getElem? hu) (mem_of_getElem? hu') hvl hvl'

/-- The way is clear for a new version by the transaction. -/
def Clear (w : Store K V) (t : Nat) (key : K) : Prop :=
  ∀ v ∈ w.versions, v.key = key → w.Gone v ∨ v.xmax = t

theorem PairsGood.put_version {key : K} (val : V) (hc : w.Clear t key) (h : w.PairsGood) :
    (w.put_version t key val).PairsGood := by
  have hnew : ∀ v ∈ w.versions, v.key = key →
      (w.put_version t key val).PairGood v { key, val, xmin := t, xmax := 0 } := by
    intro v hv hk
    rcases hc v hv hk with hgone | hx
    · exact .inl hgone
    · exact .inr (.inr (.inl hx))
  intro i j v v' hij hv hv' hkey
  rw [put_version_getElem?] at hv hv'
  split at hv <;> split at hv'
  · omega
  · cases hv; exact (hnew v' (mem_of_getElem? hv') hkey.symm).symm
  · cases hv'; exact hnew v (mem_of_getElem? hv) hkey
  · exact h i j v v' hij hv hv' hkey

/-! ## What a handle is shown -/

/-- Every version that the transaction stamped still carries its stamp. -/
def KeepsStamps (w : Store K V) (t : Nat) : Prop :=
  ∀ i, (t, i) ∈ w.stamps → ∃ v, w.versions[i]? = some v ∧ v.xmax = t

/-- The holder sees at most one version of each key. -/
def ShowsOne (w : Store K V) (h : Holder) : Prop :=
  ∀ (i j : Nat) v v', w.versions[i]? = some v → w.versions[j]? = some v' → v.key = v'.key →
    h.txn.is_visible v.xmin v.xmax w.tm = true → h.txn.is_visible v'.xmin v'.xmax w.tm = true →
    i = j

section

variable (hg : w.Good)

include hg

theorem keepsStamps_of_not_aborted (h : ¬ w.Aborted t) : w.KeepsStamps t := by
  intro i hi
  obtain ⟨v, hv, hx⟩ := hg.stamped t i hi
  exact ⟨v, hv, hx.resolve_right h⟩

/-- An aborted transaction stamps nothing, so a stamp it has later it has had all along. -/
theorem KeepsStamps.earlier (hl : w.Later w') (h : w'.KeepsStamps t) : w.KeepsStamps t := by
  intro i hi
  obtain ⟨v, hv, hx⟩ := hg.stamped t i hi
  refine ⟨v, hv, ?_⟩
  rcases hx with hx | ha
  · exact hx
  obtain ⟨v', hv', hvl⟩ := hl.versions i v hv
  obtain ⟨u, hu, hxt⟩ := h i (hl.stamps _ hi)
  rw [hv'] at hu
  cases hu
  rcases hvl.xmax with he | ⟨_, hnf⟩
  · exact he.symm.trans hxt
  · exact absurd (.inr (hxt ▸ ha)) hnf

/-- What a handle is shown of a version it was already shown before. -/
theorem visible_earlier {h : Holder} {i : Nat} (hg' : w'.Good) (hl : w.Later w')
    (hm : h ∈ w.txns.holders) (hk : w'.KeepsStamps h.txn.txn_id) (hv : w.versions[i]? = some v)
    (hv' : w'.versions[i]? = some v') (hvis : h.txn.is_visible v'.xmin v'.xmax w'.tm = true) :
    h.txn.is_visible v.xmin v.xmax w.tm = true := by
  obtain ⟨u, hu, hvl⟩ := hl.versions i v hv
  rw [hv'] at hu
  cases hu
  rw [transaction_is_visible_iff, snapshot_visible_later hg hg' hl hm hvl, hvl.xmin] at hvis
  refine transaction_is_visible_iff.mpr ⟨fun hx => ?_, hvis.2⟩
  have h0 : v.xmax ≠ 0 := by rw [hx]; exact hg.txns.holder_id_ne_zero hm
  obtain ⟨u, hu, hxu⟩ := hk i (hl.stamps _ (hx ▸ hg.recorded i v hv h0))
  rw [hv'] at hu
  cases hu
  exact hvis.1 hxu

theorem ShowsOne.later {h : Holder} (hg' : w'.Good) (hl : w.Later w') (hm : h ∈ w.txns.holders)
    (hk : w'.KeepsStamps h.txn.txn_id)
    (hlen : ∀ (i : Nat) v, w'.versions[i]? = some v → ∃ u, w.versions[i]? = some u)
    (hs : w.ShowsOne h) : w'.ShowsOne h := by
  intro i j v v' hv hv' hkey hvis hvis'
  obtain ⟨u, hu⟩ := hlen i v hv
  obtain ⟨u', hu'⟩ := hlen j v' hv'
  have hkeys : u.key = u'.key := by
    obtain ⟨x, hx, hvl⟩ := hl.versions i u hu
    obtain ⟨x', hx', hvl'⟩ := hl.versions j u' hu'
    rw [hv] at hx
    cases hx
    rw [hv'] at hx'
    cases hx'
    rw [← hvl.key, ← hvl'.key, hkey]
  exact hs i j u u' hu hu' hkeys (visible_earlier hg hg' hl hm hk hu hv hvis)
    (visible_earlier hg hg' hl hm hk hu' hv' hvis')

/-- A snapshot that has just been taken shows at most one version of a key. -/
theorem showsOne_of_taken {e : StoreEvent K V} {h : Holder} (hs : w.step e = some w')
    (hnew : h ∉ w.txns.holders) (hm : h ∈ w'.txns.holders) (hp : w'.PairsGood) : w'.ShowsOne h := by
  have hg' := good_step hg hs
  have hown := not_wrote_of_taken hg hs hnew hm
  have hsees : ∀ x, w'.phase x = .committed → h.txn.snapshot.is_committed x w'.tm = true := by
    intro x hx
    cases step_kind hg hs with
    | txn e txns h1 eq =>
      subst eq
      have hx' : txns.phase x = .committed := hx
      have hset : (txns.phase x).Settled := by rw [hx']; trivial
      obtain ⟨hlt, hna⟩ := bounds_of_taken hg.txns h1 hnew hm (.inr hset)
      exact (hg'.txns.sees_iff hm x).mpr (.inr ⟨hlt, hna, hx⟩)
    | create t key val hp eq | stamp txn slot v hr hv hd eq | sweep s eq =>
      subst eq; exact absurd hm hnew
  -- A version shown by the fresh snapshot is not gone, and whoever deleted it is unseen.
  have hshown : ∀ v ∈ w'.versions, h.txn.is_visible v.xmin v.xmax w'.tm = true →
      h.txn.snapshot.is_committed v.xmin w'.tm = true ∧ ¬ w'.Gone v ∧
        (v.xmax = 0 ∨ h.txn.snapshot.is_committed v.xmax w'.tm = false) := by
    intro v hv hvis
    have hc := (transaction_is_visible_iff.mp hvis).2.resolve_left
      fun he => hown (he ▸ hg'.xmin v hv)
    obtain ⟨hcreator, hdeleter⟩ := is_visible_iff.mp hc
    refine ⟨hcreator, ?_, hdeleter⟩
    rintro (ha | hx)
    · simp [sees_eq_false_of_aborted hg' hm (hg'.wrote_ne_zero (hg'.xmin v hv)) ha] at hcreator
    rcases hdeleter with h0 | hu
    · rw [h0, phase, (hg'.txns.born 0).mpr (.inl rfl)] at hx
      cases hx
    · simp [hsees _ hx] at hu
  have hdel : ∀ v ∈ w'.versions, ∀ u ∈ w'.versions,
      h.txn.is_visible v.xmin v.xmax w'.tm = true → h.txn.is_visible u.xmin u.xmax w'.tm = true →
      v.xmax ≠ u.xmin := by
    intro v hv u hu hvis huvis he
    rcases (hshown v hv hvis).2.2 with h0 | hx
    · exact hg'.wrote_ne_zero (hg'.xmin u hu) (he ▸ h0)
    · simp [he, (hshown u hu huvis).1] at hx
  intro i j v v' hv hv' hkey hvis hvis'
  have hmem := mem_of_getElem? hv
  have hmem' := mem_of_getElem? hv'
  by_contra hij
  rcases hp i j v v' hij hv hv' hkey with hgone | hgone | he | he
  · exact (hshown v hmem hvis).2.1 hgone
  · exact (hshown v' hmem' hvis').2.1 hgone
  · exact hdel v hmem v' hmem' hvis hvis' he
  · exact hdel v' hmem' v hmem hvis' hvis he

theorem txn_eq_of_running {h : Holder} (hr : w.Running txn) (hm : h ∈ w.txns.holders)
    (hid : h.txn.txn_id = txn.txn_id) : h.txn = txn := by
  have hreg := (hg.txns.holder _ hr.1).registered
  simp only [Txns.Registered] at hreg
  have htok : h.token = none := by
    cases htok : h.token with
    | none => rfl
    | some token =>
      have hregh := (hg.txns.holder h hm).registered
      simp only [Txns.Registered, htok] at hregh
      have := hg.txns.next_le
      omega
  have := hg.txns.unique h hm _ hr.1 htok rfl hid
  rw [this]

theorem is_in_progress_of_running {h : Holder} (hm : h ∈ w.txns.holders)
    (hr : w.phase t = .running) : h.txn.snapshot.is_in_progress t w.tm = true := by
  have h0 : t ≠ 0 := hg.wrote_ne_zero (by simp [Wrote, hr])
  have hgood := hg.txns.holder h hm
  have hnot : ¬ (t < h.txn.snapshot.xmax ∧ t ∉ h.txn.snapshot.active) := by
    rintro ⟨hx, ha⟩
    have hset := hg.txns.settled hm h0 hx ha
    rw [show w.txns.phase t = .running from hr] at hset
    exact hset
  have hcm := hg.txns.is_committed_iff h0
  have hab := hg.txns.is_aborted_iff t
  rw [snapshot_is_in_progress_iff]
  refine ⟨h0, ?_, ?_, ?_, ?_⟩
  · rw [Bool.eq_false_iff, ne_eq, hcm]; simp_all
  · rw [Bool.eq_false_iff, ne_eq, hab]; simp_all
  · by_contra hlt
    have hle := hgood.xmin_le
    refine hnot ⟨by omega, fun ha => ?_⟩
    have := hgood.active_ge t ha
    omega
  by_contra hn
  rw [not_or, not_le] at hn
  exact hnot hn

end

end Store

namespace Sessions

variable {K V : Type*}

/-! ## The condition on inserts -/

/-- The insert that passes its check finds no version whose creator it does not see and
that is still in the way. -/
def InsertSafe [DecidableEq K] (w : Sessions K V) : SessionEvent K V → Prop
  | .insert txn key _ =>
    check_insert_conflict w.tm txn (w.stampsOf key) = .ok () →
      ∀ v ∈ w.versions, v.key = key → v.xmin ≠ txn.txn_id →
        txn.snapshot.is_committed v.xmin w.tm = false → w.store.Gone v
  | _ => True

instance [DecidableEq K] (w : Sessions K V) (e : SessionEvent K V) :
    Decidable (w.InsertSafe e) := by
  unfold InsertSafe
  cases e <;> infer_instance

/-- While an update is in progress its row is claimed: a version carries its stamp, no
version of the key is in the way of the new one, and its own handle shows none. -/
structure ClaimGood (w : Sessions K V) (t : Nat) (key : K) : Prop where
  claimed : ∃ v ∈ w.versions, v.key = key ∧ v.xmax = t ∧
    (v.xmin = t ∨ w.store.phase v.xmin = .committed)
  clear : w.store.Clear t key
  hidden : ∀ h ∈ w.store.txns.holders, h.txn.txn_id = t → ∀ v ∈ w.versions, v.key = key →
    h.txn.is_visible v.xmin v.xmax w.tm = false

structure Sound (w : Sessions K V) : Prop where
  good : w.Good
  pairs : w.store.PairsGood
  claims : ∀ t key val, w.pending t = some (key, val) → w.ClaimGood t key
  shown : ∀ h ∈ w.store.txns.holders, w.store.KeepsStamps h.txn.txn_id → w.store.ShowsOne h

variable {w w' : Sessions K V} {key : K} {val : V} {v : Version K V}

theorem mem_stampsOf [DecidableEq K] (hv : v ∈ w.versions) : (v.xmin, v.xmax) ∈ w.stampsOf v.key :=
  mem_map.mpr ⟨v, mem_filter.mpr ⟨hv, by simp⟩, rfl⟩

/-! ## Steps that add no version -/

theorem ClaimGood.later (hg : w.Good) (hg' : w'.Good) (hl : w.store.Later w'.store)
    (hr : w.store.phase t = .running) (hr' : w'.store.phase t = .running)
    (hlen : ∀ (i : Nat) v, w'.versions[i]? = some v → ∃ u, w.versions[i]? = some u)
    (hnew : ∀ h ∈ w'.store.txns.holders, h ∉ w.store.txns.holders → ¬ w'.store.Wrote h.txn.txn_id)
    (h : w.ClaimGood t key) : w'.ClaimGood t key := by
  have h0 : t ≠ 0 := hg.store.wrote_ne_zero (by simp [Store.Wrote, hr])
  have hna : ¬ w'.store.Aborted t := by simp [Store.Aborted, hr']
  -- Each version is an old one, and the stamp of a running transaction stays.
  have hold : ∀ v' ∈ w'.versions, ∃ (i : Nat) (v : Version K V),
      w.versions[i]? = some v ∧ w'.versions[i]? = some v' ∧
      w.store.VersionLater w'.store v v' := by
    intro v' hv'
    obtain ⟨i, hi⟩ := mem_iff_getElem?.mp hv'
    obtain ⟨v, hv⟩ := hlen i v' hi
    obtain ⟨u, hu, hvl⟩ := hl.versions i v hv
    rw [show w'.store.versions[i]? = some v' from hi] at hu
    cases hu
    exact ⟨i, v, hv, hi, hvl⟩
  have hstays : ∀ v v', w.store.VersionLater w'.store v v' → v.xmax = t → v'.xmax = t := by
    intro v v' hvl hx
    rcases hvl.xmax with he | ⟨hz | ha, _⟩
    · exact he.trans hx
    · exact absurd (hx ▸ hz) h0
    · exact absurd (hx ▸ ha) hna
  refine ⟨?_, ?_, ?_⟩
  · obtain ⟨v, hv, hk, hx, hc⟩ := h.claimed
    obtain ⟨i, hi⟩ := mem_iff_getElem?.mp hv
    obtain ⟨v', hv', hvl⟩ := hl.versions i v hi
    refine ⟨v', mem_of_getElem? hv', hvl.key.trans hk, hstays v v' hvl hx, ?_⟩
    rw [hvl.xmin]
    refine hc.imp_right fun hp => ?_
    have hset : (w.store.phase v.xmin).Settled := by rw [hp]; trivial
    exact ((hl.txns.phase v.xmin).eq_of_settled hset).trans hp
  · intro v' hv' hk
    obtain ⟨i, v, hv, _, hvl⟩ := hold v' hv'
    rcases h.clear v (mem_of_getElem? hv) (hvl.key.symm.trans hk) with hgone | hx
    · exact .inl (hgone.later hg.store hl hvl)
    · exact .inr (hstays v v' hvl hx)
  intro g hm hid v' hv' hk
  obtain ⟨i, v, hv, hvi, hvl⟩ := hold v' hv'
  by_cases hm' : g ∈ w.store.txns.holders
  · rw [Bool.eq_false_iff]
    intro hvis
    have hkeep := hid ▸ Store.keepsStamps_of_not_aborted hg'.store hna
    have := Store.visible_earlier hg.store hg'.store hl hm' hkeep hv hvi hvis
    rw [h.hidden g hm' hid v (mem_of_getElem? hv) (hvl.key.symm.trans hk)] at this
    cases this
  have hw : w'.store.Wrote t := by simp [Store.Wrote, hr']
  exact absurd (hid ▸ hw) (hnew g hm hm')

/-- A step that adds no version keeps everything, given that the claims it adds and the
snapshots it takes are as they should be. -/
theorem Sound.later (hs : w.Sound) (hg' : w'.Good) (hl : w.store.Later w'.store)
    (hlen : ∀ (i : Nat) v, w'.versions[i]? = some v → ∃ u, w.versions[i]? = some u)
    (hp : ∀ t key val, w'.pending t = some (key, val) → w.pending t = some (key, val) ∨
      w'.ClaimGood t key)
    (hnew : ∀ h ∈ w'.store.txns.holders, h ∉ w.store.txns.holders → ¬ w'.store.Wrote h.txn.txn_id ∧
      (w'.store.PairsGood → w'.store.ShowsOne h)) : w'.Sound := by
  have hpairs := hs.pairs.later hs.good.store hl hlen
  refine ⟨hg', hpairs, ?_, ?_⟩
  · intro t key val ht
    rcases hp t key val ht with hold | hclaim
    · exact (hs.claims t key val hold).later hs.good hg' hl (hs.good.pending t (by simp [hold]))
        (hg'.pending t (by simp [ht])) hlen fun h hm hm' => (hnew h hm hm').1
    · exact hclaim
  intro h hm hk
  by_cases hm' : h ∈ w.store.txns.holders
  · exact (hs.shown h hm' (hk.earlier hs.good.store hl)).later hs.good.store hg'.store hl hm' hk
      hlen
  · exact (hnew h hm hm').2 hpairs

theorem sound_txn {e : TxnEvent} {txns : Txns} (hs : w.Sound) (hg' : w'.Good)
    (h : w.store.txns.step e = some txns) (eq : w' = { w with store := { w.store with txns } }) :
    w'.Sound := by
  have hstep : w.store.step (.txn e) = some w'.store := by simp [Store.step, h, eq]
  refine hs.later hg' (Store.later_step hs.good.store hstep) ?_ ?_ ?_
  · intro i v hv; rw [eq] at hv; exact ⟨v, hv⟩
  · intro t key val ht; rw [eq] at ht; exact .inl ht
  intro g hm hm'
  exact ⟨Store.not_wrote_of_taken hs.good.store hstep hm' hm,
    Store.showsOne_of_taken hs.good.store hstep hm' hm⟩

/-- The transaction that stamps a version claims the key: what else there is of the key is
gone, or it deleted it itself. -/
theorem claim_of_stamp {slot : Nat} (pending : Nat → Option (K × V)) (hs : w.Sound)
    (hi : w.Idle txn) (hv : w.versions[slot]? = some v)
    (hvis : txn.is_visible v.xmin v.xmax w.tm = true) (hx : v.xmax = 0 ∨ w.store.Aborted v.xmax) :
    ClaimGood { store := w.store.put_stamp txn.txn_id slot v, pending } txn.txn_id v.key := by
  have hg := hs.good.store
  have hvm := mem_of_getElem? hv
  have hm : { txn, token := none : Holder } ∈ w.store.txns.holders := hi.1.1
  have hr := hi.1.2
  have hcreator : v.xmin = txn.txn_id ∨ w.store.phase v.xmin = .committed := by
    refine (transaction_is_visible_iff.mp hvis).2.imp_right fun hsv => ?_
    have hseen := (hg.txns.sees_iff hm v.xmin).mp (is_visible_iff.mp hsv).1
    exact (hseen.resolve_left (hg.wrote_ne_zero (hg.xmin v hvm))).2.2
  have hget := fun i => Store.put_stamp_getElem? (t := txn.txn_id) i hv
  have hslot : slot < w.store.versions.length := lt_of_getElem? hv
  refine ⟨⟨{ v with xmax := txn.txn_id }, ?_, rfl, rfl, hcreator⟩, ?_, ?_⟩
  · exact mem_of_getElem? ((hget slot).trans (if_pos rfl))
  · intro u hu hk
    obtain ⟨j, hj⟩ := mem_iff_getElem?.mp hu
    rw [hget] at hj
    split at hj
    · cases hj; exact .inr rfl
    next hne =>
    have hum := mem_of_getElem? hj
    rcases hs.pairs slot j v u (Ne.symm hne) hv hj hk.symm with (ha | hp) | hgone | he | he
    · rcases hcreator with hc | hc
      · simp [Store.Aborted, hc, hr] at ha
      · simp [Store.Aborted, hc] at ha
    · rcases hx with h0 | ha
      · rw [h0, Store.phase, (hg.txns.born 0).mpr (.inl rfl)] at hp
        cases hp
      · simp [Store.Aborted, hp] at ha
    · exact .inl hgone
    · rcases hx with h0 | ha
      · exact absurd (he ▸ h0) (hg.wrote_ne_zero (hg.xmin u hum))
      · exact .inl (.inl (he ▸ ha))
    rcases hcreator with hc | hc
    · exact .inr (he.trans hc)
    · exact .inl (.inr (he ▸ hc))
  intro g hgm hid u hu hk
  have hgt := Store.txn_eq_of_running hg hi.1 hgm hid
  obtain ⟨j, hj⟩ := mem_iff_getElem?.mp hu
  rw [hget] at hj
  split at hj
  · cases hj
    rw [Bool.eq_false_iff, ne_eq, transaction_is_visible_iff, hgt]
    simp
  next hne =>
  rw [Bool.eq_false_iff]
  intro huvis
  have hna : ¬ w.store.Aborted g.txn.txn_id := by
    rw [hid]; simp [Store.Aborted, hr]
  have hone := hs.shown g hgm (Store.keepsStamps_of_not_aborted hg hna)
  exact hne (hone j slot u v hj hv hk huvis (hgt ▸ hvis))

theorem sound_stamp {slot : Nat} {pending : Nat → Option (K × V)} (hs : w.Sound) (hg' : w'.Good)
    (hl : w.store.Later w'.store) (hi : w.Idle txn) (hv : w.versions[slot]? = some v)
    (hvis : txn.is_visible v.xmin v.xmax w.tm = true) (hx : v.xmax = 0 ∨ w.store.Aborted v.xmax)
    (hp : pending = w.pending ∨ ∃ val, pending = update w.pending txn.txn_id (some
      (v.key, val))) (eq : w' = { store := w.store.put_stamp txn.txn_id slot v, pending }) :
    w'.Sound := by
  have hclaim := claim_of_stamp pending hs hi hv hvis hx
  subst eq
  refine hs.later hg' hl ?_ ?_ fun h hm hm' => absurd hm hm'
  · intro i u hu
    rw [versions, Store.put_stamp_getElem? _ hv] at hu
    split at hu
    · next he => exact ⟨v, he ▸ hv⟩
    · exact ⟨u, hu⟩
  intro t key val ht
  rcases hp with rfl | ⟨val', rfl⟩
  · exact .inl ht
  by_cases he : t = txn.txn_id
  · subst he
    simp only [update_self, Option.some.injEq, Prod.mk.injEq] at ht
    exact .inr (ht.1 ▸ hclaim)
  simp only [update_of_ne he] at ht
  exact .inl ht

/-! ## Steps that add a version -/

/-- A new version keeps everything when the way is clear, its writer sees no version of the
key, and no other transaction has claimed the key. -/
theorem sound_put_version {pending : Nat → Option (K × V)} (hs : w.Sound)
    (hg' : Good { store := w.store.put_version t key val, pending })
    (hl : w.store.Later (w.store.put_version t key val)) (hr : w.store.phase t = .running)
    (hclear : w.store.Clear t key)
    (hhidden : ∀ h ∈ w.store.txns.holders, h.txn.txn_id = t → ∀ v ∈ w.versions, v.key = key →
      h.txn.is_visible v.xmin v.xmax w.tm = false)
    (hp : ∀ u key' val', pending u = some (key', val') → w.pending u = some (key', val') ∧ key' ≠
      key) : Sound { store := w.store.put_version t key val, pending } := by
  have hg := hs.good.store
  refine ⟨hg', hs.pairs.put_version val hclear, ?_, ?_⟩
  · intro u key' val' hu
    obtain ⟨hold, hne⟩ := hp u key' val' hu
    have hc := hs.claims u key' val' hold
    refine ⟨?_, ?_, ?_⟩
    · obtain ⟨v, hv, hk⟩ := hc.claimed
      exact ⟨v, mem_append_left _ hv, hk⟩
    · exact forall_mem_concat hc.clear fun hk => absurd hk.symm hne
    intro h hm hid
    exact forall_mem_concat (hc.hidden h hm hid) fun hk => absurd hk.symm hne
  intro h hm hk
  have hone := hs.shown h hm (hk.earlier hg hl)
  -- The new version is shown to its writer only, who is shown no other.
  have hnew : ∀ v ∈ w.versions, v.key = key → h.txn.is_visible t 0 w.tm = true →
      h.txn.is_visible v.xmin v.xmax w.tm = false := by
    intro v hv hkey hvis
    refine hhidden h hm ?_ v hv hkey
    by_contra hne
    have hsv := (transaction_is_visible_iff.mp hvis).2.resolve_left (Ne.symm hne)
    have h0 : t ≠ 0 := hg.wrote_ne_zero (by simp [Store.Wrote, hr])
    have hnf : ¬ (w.store.phase t).Final := by simp [hr, Phase.Final]
    simp [is_visible_iff, Store.sees_eq_false_of_not_final hg hm h0 hnf] at hsv
  intro i j v v' hv hv' hkey hvis hvis'
  rw [Store.put_version_getElem?] at hv hv'
  split at hv <;> split at hv'
  · omega
  · cases hv
    have := hnew v' (mem_of_getElem? hv') hkey.symm hvis
    exact absurd (hvis'.symm.trans this) (by simp)
  · cases hv'
    have := hnew v (mem_of_getElem? hv) hkey hvis'
    exact absurd (hvis.symm.trans this) (by simp)
  · exact hone i j v v' hv hv' hkey hvis hvis'

/-- What a safe insert that passes its check has established. -/
theorem clear_of_insert [DecidableEq K] (hg : w.Good) (hi : w.Idle txn)
    (hsafe : w.InsertSafe (.insert txn key val))
    (hok : check_insert_conflict w.tm txn (w.stampsOf key) = .ok ()) :
    w.store.Clear txn.txn_id key := by
  intro v hv hk
  have hhidden := (check_insert_conflict_ok_iff.mp hok _ (hk ▸ mem_stampsOf hv)).2.1
  rw [Bool.eq_false_iff, ne_eq, transaction_is_visible_iff] at hhidden
  by_cases hx : v.xmax = txn.txn_id
  · exact .inr hx
  refine .inl ?_
  have hown : v.xmin ≠ txn.txn_id := fun hc => hhidden ⟨hx, .inl hc⟩
  cases hsees : txn.snapshot.is_committed v.xmin w.tm with
  | false => exact hsafe hok v hv hk hown hsees
  | true =>
    have hdel : v.xmax ≠ 0 ∧ txn.snapshot.is_committed v.xmax w.tm = true := by
      by_contra hn
      refine hhidden ⟨hx, .inr (is_visible_iff.mpr ⟨hsees, ?_⟩)⟩
      rwa [not_and_or, not_not, Bool.not_eq_true] at hn
    have hp := (hg.store.txns.sees_iff hi.1.1 v.xmax).mp hdel.2
    exact .inr (hp.resolve_left hdel.1).2.2

/-- A claimed key stops the inserts of others. -/
theorem no_claim_of_insert [DecidableEq K] {u : Nat} (hs : w.Sound) (hi : w.Idle txn)
    (hok : check_insert_conflict w.tm txn (w.stampsOf key) = .ok ()) :
    w.pending u ≠ some (key, val) := by
  intro hu
  obtain ⟨v, hv, hk, hx, _⟩ := (hs.claims u key val hu).claimed
  have hr := hs.good.pending u (by simp [hu])
  have hne : u ≠ txn.txn_id := by
    rintro rfl
    have := hi.2
    simp [hu] at this
  have h0 : u ≠ 0 := hs.good.store.wrote_ne_zero (by simp [Store.Wrote, hr])
  have hfree := (check_insert_conflict_ok_iff.mp hok _ (hk ▸ mem_stampsOf hv)).2.2
  have hin := Store.is_in_progress_of_running hs.good.store hi.1.1 hr
  rw [hx] at hfree
  exact absurd (hin.symm.trans (hfree h0 hne)) (by simp)

/-- Two transactions never have an update of one key in progress. -/
theorem no_second_claim {u : Nat} {val' : V} (hs : w.Sound) (ht : w.pending t = some (key, val))
    (hu : w.pending u = some (key, val')) : u = t := by
  obtain ⟨v, hv, hk, hx, hc⟩ := (hs.claims u key val' hu).claimed
  have hr := hs.good.pending u (by simp [hu])
  rcases (hs.claims t key val ht).clear v hv hk with (ha | hp) | he
  · rcases hc with hc | hc
    · simp [Store.Aborted, hc, hr] at ha
    · simp [Store.Aborted, hc] at ha
  · rw [hx, hr] at hp; cases hp
  · exact hx.symm.trans he

/-! ## The law -/

theorem sound_new : (new : Sessions K V).Sound where
  good := good_new
  pairs i j v v' _ hv := by simp [new, Store.new] at hv
  claims t key val h := by simp [new] at h
  shown h hm := by simp [new, Store.new, Txns.new] at hm

theorem sound_step [DecidableEq K] {e : SessionEvent K V} (hs : w.Sound) (hsafe : w.InsertSafe e)
    (h : w.step e = some w') : w'.Sound := by
  have hg' := good_step hs.good h
  have hl := later_step hs.good h
  cases step_kind hs.good.store h with
  | txn txns ht hp eq => exact sound_txn hs hg' ht eq
  | insert hi hok eq =>
    subst eq
    refine sound_put_version hs hg' hl hi.1.2 (clear_of_insert hs.good hi hsafe hok) ?_ ?_
    · intro g hm hid v hv hk
      rw [Store.txn_eq_of_running hs.good.store hi.1 hm hid]
      exact (check_insert_conflict_ok_iff.mp hok _ (hk ▸ mem_stampsOf hv)).2.1
    intro u key' val' hu
    refine ⟨hu, ?_⟩
    rintro rfl
    exact no_claim_of_insert hs hi hok hu
  | stamp txn slot v pending hi hv hvis hx hp eq =>
    exact sound_stamp hs hg' hl hi hv hvis hx hp eq
  | @update_insert t key val hp eq =>
    subst eq
    have hc := hs.claims t key val hp
    refine sound_put_version hs hg' hl (hs.good.pending t (by simp [hp])) hc.clear hc.hidden ?_
    intro u key' val' hu
    by_cases he : u = t
    · simp [he] at hu
    rw [update_of_ne he] at hu
    refine ⟨hu, ?_⟩
    rintro rfl
    exact he (no_second_claim hs hp hu)
  | @update_fail t eq =>
    subst eq
    refine hs.later hg' hl (fun i v hv => ⟨v, hv⟩) ?_ fun h hm hm' => absurd hm hm'
    intro u key val hu
    by_cases he : u = t
    · simp [he] at hu
    · exact .inl (by simpa [update_of_ne he] using hu)
  | same eq => exact eq ▸ hs

/-- Key uniqueness under snapshots. In every run whose inserts are safe, every handle sees
at most one stored version of a key. For the handle of an aborted transaction the versions
it stamped must still carry its stamp. -/
theorem a_snapshot_shows_at_most_one_version [DecidableEq K] {w : Sessions K V}
    {p : List (SessionEvent K V)} {h : Holder} {i j : Nat} {v v' : Version K V}
    (hrun : Runs.run step new p = some w) (hsafe : Runs.Meets step InsertSafe new p)
    (hm : h ∈ w.store.txns.holders)
    (hkeeps : w.tm.is_aborted h.txn.txn_id = true → w.store.KeepsStamps h.txn.txn_id)
    (hv : w.versions[i]? = some v) (hv' : w.versions[j]? = some v') (hkey : v.key = v'.key)
    (hvis : h.txn.is_visible v.xmin v.xmax w.tm = true)
    (hvis' : h.txn.is_visible v'.xmin v'.xmax w.tm = true) : i = j := by
  have hs : w.Sound :=
    Runs.inv_run_meets (fun _ _ _ hs hok he => sound_step hs hok he) sound_new hsafe hrun
  refine hs.shown h hm ?_ i j v v' hv hv' hkey hvis hvis'
  by_cases ha : w.store.Aborted h.txn.txn_id
  · refine hkeeps ?_
    rw [is_aborted_iff, hs.good.store.txns.clog]
    exact ha
  · exact Store.keepsStamps_of_not_aborted hs.good.store ha

/-- A row is inserted and committed, then updated and committed, then read. -/
def insertUpdateRead : List (SessionEvent Nat Nat) :=
  [.txn .begin, .txn (.begin_clog 1), .insert ⟨1, ⟨1, 2, [1]⟩⟩ 7 70, .txn (.commit_clog 1),
    .txn (.commit_active 1), .txn .begin, .txn (.begin_clog 2), .update ⟨2, ⟨2, 3, [2]⟩⟩ 0 71,
    .update_insert 2, .txn (.commit_clog 2), .txn (.commit_active 2), .txn .read_snapshot]

theorem after_an_update_only_the_new_version_is_shown :
    ∃ w : Sessions Nat Nat, Runs.run step new insertUpdateRead = some w ∧
      w.versions = [⟨7, 70, 1, 2⟩, ⟨7, 71, 2, 0⟩] ∧
      (⟨u64Max, ⟨3, 3, []⟩⟩ : Transaction).is_visible 2 0 w.tm = true ∧
      ¬ (⟨u64Max, ⟨3, 3, []⟩⟩ : Transaction).is_visible 1 2 w.tm = true := by
  refine ⟨_, rfl, rfl, by decide, fun hvis => ?_⟩
  have := a_snapshot_shows_at_most_one_version (p := insertUpdateRead)
    (h := ⟨⟨u64Max, ⟨3, 3, []⟩⟩, some 0⟩) (i := 0) (j := 1) rfl (by decide) (by decide)
    (fun h => absurd h (by decide)) rfl rfl rfl hvis (by decide)
  cases this

/-- The first transaction begins. The second begins after it, inserts a row and commits.
The first then inserts a row with the same key, and its check passes. -/
def insertTwice : List (SessionEvent Nat Nat) :=
  [.txn .begin, .txn (.begin_clog 1), .txn .begin, .txn (.begin_clog 2),
    .insert ⟨2, ⟨1, 3, [2, 1]⟩⟩ 7 72, .txn (.commit_clog 2), .txn (.commit_active 2),
    .insert ⟨1, ⟨1, 2, [1]⟩⟩ 7 71, .txn (.commit_clog 1), .txn (.commit_active 1),
    .txn .read_snapshot]

/-- Both rows stay, and a reader that comes later sees both. -/
theorem two_versions_of_a_key_are_shown :
    ∃ (w : Sessions Nat Nat) (h : Holder), Runs.run step new insertTwice = some w ∧
      h ∈ w.store.txns.holders ∧ w.versions = [⟨7, 72, 2, 0⟩, ⟨7, 71, 1, 0⟩] ∧
      h.txn.is_visible 2 0 w.tm = true ∧ h.txn.is_visible 1 0 w.tm = true := by
  refine ⟨_, ⟨⟨u64Max, ⟨3, 3, []⟩⟩, some 0⟩, rfl, ?_, rfl, ?_, ?_⟩ <;> decide

end Sessions

end FluxDB
