-- The laws of snapshots over the version store. What a snapshot shows of the work of
-- others never changes, and a compaction that captured its horizon first answers true
-- only for versions that no snapshot in use, and none taken later, can show.
import FluxDB.VersionStore

namespace FluxDB.Store

variable {K V : Type*}

/-! ## A snapshot never changes its mind -/

variable {w w' : Store K V} {s s' : Sweep} {e : StoreEvent K V} {x : Nat}

theorem sees_eq_false_of_not_final (hg : w.Good) {h : Holder} (hm : h ∈ w.txns.holders)
    (h0 : x ≠ 0) (hf : ¬ (w.phase x).Final) : h.txn.snapshot.is_committed x w.tm = false := by
  rw [Bool.eq_false_iff, ne_eq, hg.txns.sees_iff hm]
  rintro (h | ⟨_, _, hp⟩)
  · exact h0 h
  · simp [hp, Phase.Final] at hf

theorem sees_eq_false_of_aborted (hg : w.Good) {h : Holder} (hm : h ∈ w.txns.holders) (h0 : x ≠ 0)
    (ha : w.Aborted x) : h.txn.snapshot.is_committed x w.tm = false := by
  rw [Bool.eq_false_iff, ne_eq, hg.txns.sees_iff hm]
  rintro (h | ⟨_, _, hp⟩)
  · exact h0 h
  · simp [Aborted, hp] at ha

theorem not_wrote_of_taken {h : Holder} (hg : w.Good) (hs : w.step e = some w')
    (hnew : h ∉ w.txns.holders) (hm : h ∈ w'.txns.holders) : ¬ w'.Wrote h.txn.txn_id := by
  cases step_kind hg hs with
  | txn e txns h1 eq =>
    subst eq
    exact not_not_intro (Txns.taken hg.txns h1 hnew hm).2.2
  | create t key val hp eq | stamp txn slot v hr hv hx eq | sweep s eq =>
    subst eq; exact absurd hm hnew

/-- The rule of the snapshot answers the same for a version and for what the version is
later, when the snapshot was taken before. -/
theorem snapshot_visible_later (hg : w.Good) (hg' : w'.Good) (hl : w.Later w') {h : Holder}
    (hm : h ∈ w.txns.holders) {v v' : Version K V} (hvl : w.VersionLater w' v v') :
    is_visible v'.xmin v'.xmax h.txn.snapshot w'.tm =
      is_visible v.xmin v.xmax h.txn.snapshot w.tm := by
  have hsees := Txns.sees_stable hg.txns hg'.txns hl.txns hm
  rw [Bool.eq_iff_iff, is_visible_iff, is_visible_iff, hvl.xmin, hsees, hsees]
  refine and_congr_right fun _ => ?_
  rcases hvl.xmax with he | ⟨hold, hnew⟩
  · rw [he]
  have hleft : v'.xmax = 0 ∨ h.txn.snapshot.is_committed v'.xmax w.tm = false := by
    refine or_iff_not_imp_left.mpr fun h0 => ?_
    exact sees_eq_false_of_not_final hg hm h0 hnew
  have hright : v.xmax = 0 ∨ h.txn.snapshot.is_committed v.xmax w.tm = false := by
    refine or_iff_not_imp_left.mpr fun h0 => ?_
    rw [← hsees]
    exact sees_eq_false_of_aborted hg' (hl.txns.holders h hm) h0 (hold.resolve_left h0)
  exact ⟨fun _ => hright, fun _ => hleft⟩

/-- Repeatable snapshots: of the versions that its holder neither created nor deleted, a
snapshot shows at any later time exactly those it showed when it was taken. -/
theorem a_snapshot_never_changes_its_mind {w₀ w₁ w₂ : Store K V} {p q : List (StoreEvent K V)}
    {e : StoreEvent K V} {h : Holder} {i : Nat} {v : Version K V}
    (hbefore : Runs.run step new p = some w₀) (htake : w₀.step e = some w₁)
    (hnew : h ∉ w₀.txns.holders) (hm : h ∈ w₁.txns.holders)
    (hafter : Runs.run step w₁ q = some w₂) (hv : w₂.versions[i]? = some v)
    (hcreated : v.xmin ≠ h.txn.txn_id) (hdeleted : v.xmax ≠ h.txn.txn_id) :
    h.txn.is_visible v.xmin v.xmax w₂.tm = true ↔
      ∃ v₁, w₁.versions[i]? = some v₁ ∧ h.txn.is_visible v₁.xmin v₁.xmax w₁.tm = true := by
  have hg₀ := good_run hbefore
  have hg₁ := good_step hg₀ htake
  have hl := later_run hg₁ hafter
  have hg₂ : w₂.Good := Runs.inv_run (fun _ _ _ => good_step) hg₁ hafter
  have hfresh := not_wrote_of_taken hg₀ htake hnew hm
  cases hv₁ : w₁.versions[i]? with
  | none =>
    have hns := hl.created i v hv hv₁
    have h0 := hg₂.wrote_ne_zero (hg₂.xmin v (List.mem_of_getElem? hv))
    have hunseen := sees_eq_false_of_not_final hg₁ hm h0 hns
    rw [← Txns.sees_stable hg₁.txns hg₂.txns hl.txns hm] at hunseen
    simp [transaction_is_visible_iff, is_visible_iff, hunseen, hcreated]
  | some v₁ =>
    obtain ⟨v', hv', hvl⟩ := hl.versions i v₁ hv₁
    rw [hv] at hv'
    cases hv'
    have hown : v₁.xmax ≠ h.txn.txn_id := by
      intro hx
      rcases hg₁.xmax v₁ (List.mem_of_getElem? hv₁) with h0 | hw
      · exact hg₁.txns.holder_id_ne_zero hm (hx ▸ h0)
      · exact hfresh (hx ▸ hw)
    have hvis := snapshot_visible_later hg₁ hg₂ hl hm hvl
    simp only [Option.some.injEq, exists_eq_left', transaction_is_visible_iff, hvis]
    simp [hcreated, hdeleted, hown, ← hvl.xmin]

/-- One transaction creates a row and commits. -/
def createAndCommit : List (StoreEvent Nat Nat) :=
  [.txn .begin, .txn (.begin_clog 1), .create 1 7 70, .txn (.commit_clog 1),
    .txn (.commit_active 1)]

/-- Another transaction deletes the row and commits. -/
def deleteAndCommit : List (StoreEvent Nat Nat) :=
  [.txn .begin, .txn (.begin_clog 2), .stamp ⟨2, ⟨2, 3, [2]⟩⟩ 0, .txn (.commit_clog 2),
    .txn (.commit_active 2)]

/-- A reader that came between the two still sees the row. -/
theorem a_snapshot_keeps_a_row_deleted_later :
    ∃ w₂ : Store Nat Nat,
      Runs.run step new (createAndCommit ++ .txn .read_snapshot :: deleteAndCommit) = some w₂ ∧
      w₂.versions = [⟨7, 70, 1, 2⟩] ∧
      (⟨u64Max, ⟨2, 2, []⟩⟩ : Transaction).is_visible 1 2 w₂.tm = true := by
  refine ⟨_, rfl, rfl, ?_⟩
  refine (a_snapshot_never_changes_its_mind (p := createAndCommit) (e := .txn .read_snapshot)
    (q := deleteAndCommit) (h := ⟨⟨u64Max, ⟨2, 2, []⟩⟩, some 0⟩) (i := 0) (v := ⟨7, 70, 1, 2⟩)
    rfl rfl (by decide) (by decide) rfl rfl (by decide) (by decide)).mpr ?_
  exact ⟨_, rfl, by decide⟩

/-! ## What a compaction knows -/

/-- The reads of a compaction with nothing between them. -/
def readsOf (tm : TransactionManager) (s : Sweep) (n : Nat) : Option Sweep :=
  Runs.run (fun s (_ : Unit) => s.read tm) s (List.replicate n ())

theorem readsOf_creator (tm : TransactionManager) (hs : s.stage = .creator .committed) :
    ∃ n, readsOf tm s n = some
      { s with
        stage := if tm.settled_status s.xmin = .Aborted then .answered true
          else if s.xmax = 0 then .answered false
          else .deleter .committed } := by
  unfold TransactionManager.settled_status
  by_cases hc : tm.is_committed s.xmin = true
  · refine ⟨1, ?_⟩
    by_cases h0 : s.xmax = 0 <;> simp [readsOf, Runs.run, Sweep.read, StatusRead.next, hs, hc, h0]
  by_cases ha : tm.is_aborted s.xmin = true
  · exact ⟨2, by simp [readsOf, Runs.run, Sweep.read, StatusRead.next, hs, hc, ha]⟩
  refine ⟨3, ?_⟩
  by_cases hx : s.xmin < tm.global_xmin <;> by_cases h0 : s.xmax = 0 <;>
    simp [readsOf, Runs.run, Sweep.read, StatusRead.next, hs, hc, ha, hx, h0]

theorem readsOf_deleter (tm : TransactionManager) (hs : s.stage = .deleter .committed) :
    ∃ n, readsOf tm s n = some
      { s with
        stage :=
          .answered (tm.settled_status s.xmax = .Committed && decide (s.xmax < s.horizon)) } := by
  unfold TransactionManager.settled_status
  by_cases hc : tm.is_committed s.xmax = true
  · exact ⟨1, by simp [readsOf, Runs.run, Sweep.read, StatusRead.next, hs, hc]⟩
  by_cases ha : tm.is_aborted s.xmax = true
  · exact ⟨2, by simp [readsOf, Runs.run, Sweep.read, StatusRead.next, hs, hc, ha]⟩
  refine ⟨3, ?_⟩
  by_cases hx : s.xmax < tm.global_xmin <;>
    simp [readsOf, Runs.run, Sweep.read, StatusRead.next, hs, hc, ha, hx]

/-- With nothing between its reads, a compaction computes `is_vacuumable`. -/
theorem reads_compute_is_vacuumable (tm : TransactionManager) (hs : s.stage = .creator .committed) :
    ∃ n, readsOf tm s n =
      some { s with stage := .answered (is_vacuumable s.xmin s.xmax s.horizon tm) } := by
  obtain ⟨n, hn⟩ := readsOf_creator tm hs
  unfold is_vacuumable
  by_cases hab : tm.settled_status s.xmin = .Aborted
  · exact ⟨n, by simpa [hab] using hn⟩
  by_cases h0 : s.xmax = 0
  · exact ⟨n, by simpa [hab, h0] using hn⟩
  simp only [hab, h0, if_false] at hn
  obtain ⟨m, hm⟩ := readsOf_deleter tm (s := { s with stage := .deleter .committed }) rfl
  refine ⟨n + m, ?_⟩
  rw [readsOf, List.replicate_add, Runs.run_append]
  refine ⟨_, hn, hm.trans ?_⟩
  by_cases hc : tm.settled_status s.xmax = .Committed <;> simp [hab, h0, hc]

/-- What the reads made so far have settled about the version that is asked about. -/
def StageGood (w : Store K V) (s : Sweep) : Prop :=
  match s.stage with
  | .deleter .aborted => s.xmax < s.horizon → w.phase s.xmax = .aborted
  | .deleter .horizon => ¬ s.xmax < s.horizon
  | .answered true =>
    w.Aborted s.xmin ∨ (s.xmax ≠ 0 ∧ s.xmax < s.horizon ∧ w.phase s.xmax = .committed)
  | _ => True

/-- The version that is asked about, when one is, with at most an empty or aborted `xmax`
replaced since it was read. -/
def PickGood (w : Store K V) (s : Sweep) : Prop :=
  s.stage ≠ .ready → ∃ v, w.versions[s.slot]? = some v ∧ v.xmin = s.xmin ∧
    (v.xmax = s.xmax ∨ s.xmax = 0 ∨ w.Aborted s.xmax)

/-- The horizon was captured first: what is below it is settled, and was settled for every
snapshot still in use. -/
structure SweepGood (w : Store K V) (s : Sweep) : Prop where
  below : ∀ x, x ≠ 0 → x < s.horizon → (w.phase x).Settled
  live : ∀ h ∈ w.txns.holders, w.txns.Live h → ∀ x < s.horizon,
    x < h.txn.snapshot.xmax ∧ x ∉ h.txn.snapshot.active
  deleter : ∀ r, s.stage = .deleter r → s.xmax ≠ 0
  pick : w.PickGood s
  stage : w.StageGood s

theorem StageGood.later (hl : w.Later w') (h : w.StageGood s) : w'.StageGood s := by
  have hsame : ∀ p : Phase, p.Settled → w.phase s.xmax = p → w'.phase s.xmax = p := by
    rintro p hp rfl
    exact (hl.txns.phase s.xmax).eq_of_settled hp
  unfold StageGood at h ⊢
  split
  · next he => simp only [he] at h; exact fun hx => hsame _ trivial (h hx)
  · next he => simp only [he] at h; exact h
  · next he =>
    simp only [he] at h
    exact h.imp hl.aborted fun ⟨h0, hx, hp⟩ => ⟨h0, hx, hsame _ trivial hp⟩
  · trivial

theorem PickGood.later (hl : w.Later w') (h : w.PickGood s) : w'.PickGood s := by
  intro hs
  obtain ⟨v, hv, hc, hd⟩ := h hs
  obtain ⟨v', hv', hvl⟩ := hl.versions _ v hv
  refine ⟨v', hv', hvl.xmin.trans hc, ?_⟩
  rcases hd with he | h0 | ha
  · rw [← he]; exact hvl.xmax.imp_right And.left
  · exact .inr (.inl h0)
  · exact .inr (.inr (hl.aborted ha))

/-- A snapshot that has just been taken counts every settled transaction as settled. -/
theorem bounds_of_taken {w w' : Txns} {e : TxnEvent} {h : Holder} (hg : w.Good)
    (hs : w.step e = some w') (hnew : h ∉ w.holders) (hm : h ∈ w'.holders)
    (hx : x = 0 ∨ (w'.phase x).Settled) : x < h.txn.snapshot.xmax ∧ x ∉ h.txn.snapshot.active := by
  have hg' := Txns.good_step hg hs
  obtain ⟨hxmax, hactive, _⟩ := Txns.taken hg hs hnew hm
  rw [hxmax, hactive, ← AList.mem_keys, hg'.active]
  rcases hx with rfl | hset
  · exact ⟨hg'.next_pos, by simp [(hg'.born 0).mpr (.inl rfl)]⟩
  constructor
  · by_contra hle
    have hu := (hg'.born x).mpr (.inr (by omega))
    simp [hu] at hset
  · cases hp : w'.phase x <;> simp_all

/-- Steps of others keep what the compaction knows. -/
theorem SweepGood.step (hg : w.Good) (h : w.step e = some w') (hs : w.SweepGood s) :
    w'.SweepGood s := by
  have hl := later_step hg h
  refine ⟨fun x h0 hx => hl.settled (hs.below x h0 hx), ?_, hs.deleter, hs.pick.later hl,
    hs.stage.later hl⟩
  intro h' hm hlive x hx
  have hzero : x = 0 ∨ (w'.phase x).Settled :=
    or_iff_not_imp_left.mpr fun h0 => hl.settled (hs.below x h0 hx)
  cases step_kind hg h with
  | txn e txns h1 eq =>
    subst eq
    by_cases hold : h' ∈ w.txns.holders
    · exact hs.live h' hold (Txns.live_of_live_step hg.txns h1 hold hlive) x hx
    · exact bounds_of_taken hg.txns h1 hold hm hzero
  | create t key val hp eq | stamp txn slot v hr hv hd eq | sweep s' eq =>
    subst eq; exact hs.live h' hm hlive x hx

theorem sweepGood_start (hg : w.Good) (hh : s.horizon = w.tm.global_xmin) (hs : s.stage = .ready) :
    w.SweepGood s where
  below x h0 hx := Txns.settled_of_lt_global_xmin hg.txns h0 (hh ▸ hx)
  live h hm hl x hx := by
    have hle := Txns.global_xmin_le_of_live hg.txns hm hl
    have hgood := hg.txns.holder h hm
    have hx' : x < h.txn.snapshot.xmin := by rw [hh] at hx; exact hx.trans_le hle
    refine ⟨hx'.trans_le hgood.xmin_le, fun ha => ?_⟩
    have := hgood.active_ge x ha
    omega
  deleter r hr := by rw [hs] at hr; cases hr
  pick h := absurd hs h
  stage := by simp only [StageGood, hs]

theorem read_frame {tm : TransactionManager} (h : s.read tm = some s') :
    s.stage ≠ .ready ∧ ∃ stage, s' = { s with stage } := by
  unfold Sweep.read at h
  cases hst : s.stage with
  | ready => simp [hst] at h
  | answered b => simp [hst] at h
  | creator r =>
    simp only [hst] at h
    refine ⟨by simp, ?_⟩
    split at h
    · cases h; exact ⟨_, rfl⟩
    · cases h; exact ⟨_, rfl⟩
    · split at h <;> cases h <;> exact ⟨_, rfl⟩
  | deleter r =>
    simp only [hst] at h
    refine ⟨by simp, ?_⟩
    split at h <;> cases h <;> exact ⟨_, rfl⟩

/-- The reads about the creator answer true only for an aborted one. -/
theorem stageGood_read_creator (hg : w.Good) {r : StatusRead} (hst : s.stage = .creator r)
    (h : s.read w.tm = some s') : w.StageGood s' ∧ ∀ r', s'.stage = .deleter r' → s.xmax ≠ 0 := by
  simp only [Sweep.read, hst] at h
  cases hn : r.next w.tm s.xmin with
  | inr r' =>
    simp only [hn, Option.some.injEq] at h
    subst h
    simp [StageGood]
  | inl status =>
    cases status with
    | Aborted =>
      simp only [hn, Option.some.injEq] at h
      subst h
      have hab : w.tm.is_aborted s.xmin = true := by
        cases r <;> simp only [StatusRead.next] at hn <;> split_ifs at hn <;> simp_all
      have hab' : w.Aborted s.xmin := by
        rw [Aborted, phase, ← hg.txns.clog]
        exact is_aborted_iff.mp hab
      exact ⟨.inl hab', by simp⟩
    | Active | Committed =>
      simp only [hn] at h
      split at h <;> cases h
      · simp [StageGood]
      · next h0 => exact ⟨trivial, fun _ _ => h0⟩

/-- The reads about the deleter. It is below the horizon only if it was settled before the
first of them, so the two CLOG reads cannot miss its fate. -/
theorem stageGood_read_deleter (hg : w.Good) {r : StatusRead} (hs : w.SweepGood s)
    (hst : s.stage = .deleter r) (h : s.read w.tm = some s') : w.StageGood s' := by
  have h0 := hs.deleter r hst
  have hc := hg.txns.is_committed_iff h0
  have ha := hg.txns.is_aborted_iff s.xmax
  have hstage := hs.stage
  have hsettled : s.xmax < s.horizon →
      w.phase s.xmax = .committed ∨ w.phase s.xmax = .aborted := by
    intro hx
    have hset := hs.below s.xmax h0 hx
    cases hp : w.phase s.xmax <;> simp_all
  simp only [StageGood, hst] at hstage
  simp only [Sweep.read, hst] at h
  cases r with
  | committed =>
    by_cases hcm : w.tm.is_committed s.xmax = true
    · simp only [StatusRead.next, hcm, if_true, Option.some.injEq] at h
      subst h
      by_cases hx : s.xmax < s.horizon
      · rcases hsettled hx with hp | hp
        · simp [StageGood, hx, h0, hp]
        simp [hp] at hc
        simp [hc] at hcm
      · simp [StageGood, hx]
    simp only [StatusRead.next, hcm, Bool.false_eq_true, if_false, Option.some.injEq] at h
    subst h
    intro hx
    rcases hsettled hx with hp | hp
    · exact absurd (hc.mpr (.inr hp)) hcm
    · exact hp
  | aborted =>
    by_cases hab : w.tm.is_aborted s.xmax = true
    · simp only [StatusRead.next, hab, if_true, Option.some.injEq] at h
      subst h
      trivial
    simp only [StatusRead.next, hab, Bool.false_eq_true, if_false, Option.some.injEq] at h
    subst h
    exact fun hx => hab (ha.mpr (.inr (hstage hx)))
  | horizon =>
    have hx : ¬ s.xmax < s.horizon := hstage
    by_cases hlt : s.xmax < w.tm.global_xmin
    · simp only [StatusRead.next, hlt, if_true, Option.some.injEq] at h
      subst h
      simp [StageGood, hx]
    simp only [StatusRead.next, hlt, if_false, Option.some.injEq] at h
    subst h
    trivial

theorem sweepGood_read (hg : w.Good) (hs : w.SweepGood s) (h : s.read w.tm = some s') :
    w.SweepGood s' := by
  obtain ⟨hready, stage, rfl⟩ := read_frame h
  have hafter : w.StageGood { s with stage } ∧ ∀ r, stage = .deleter r → s.xmax ≠ 0 := by
    cases hst : s.stage with
    | ready => exact absurd hst hready
    | answered b => simp [Sweep.read, hst] at h
    | creator r => exact stageGood_read_creator hg hst h
    | deleter r => exact ⟨stageGood_read_deleter hg hs hst h, fun _ _ => hs.deleter r hst⟩
  exact ⟨hs.below, hs.live, hafter.2, fun _ => hs.pick hready, hafter.1⟩

/-- What the compaction in progress knows is true in every reachable state. -/
def SweepsGood (w : Store K V) : Prop := ∀ s, w.sweep = some s → w.SweepGood s

theorem sweepsGood_step (hg : w.Good) (hs : w.SweepsGood) (h : w.step e = some w') :
    w'.SweepsGood := by
  intro s' hs'
  refine SweepGood.step hg h ?_
  have hothers : w'.sweep = w.sweep → w.SweepGood s' := fun he => hs s' (he ▸ hs')
  cases e with
  | txn e => obtain ⟨txns, _, rfl⟩ := txn_eq_some h; exact hothers rfl
  | create t key val => obtain ⟨_, rfl⟩ := create_eq_some h; exact hothers rfl
  | stamp txn slot => obtain ⟨_, v, _, _, rfl⟩ := stamp_eq_some hg h; exact hothers rfl
  | sweep_start =>
    cases h
    cases hs'
    exact sweepGood_start hg rfl rfl
  | sweep_pick slot =>
    simp only [step] at h
    split at h <;> cases h
    rename_i s v hsw hv
    cases hs'
    obtain ⟨hbelow, hlive, _, _, _⟩ := hs s hsw
    exact ⟨hbelow, hlive, by simp, fun _ => ⟨v, hv, rfl, .inl rfl⟩, trivial⟩
  | sweep_read =>
    simp only [step, Option.map_eq_some_iff, Option.bind_eq_some_iff] at h
    obtain ⟨s₁, ⟨s, hsw, hread⟩, rfl⟩ := h
    cases hs'
    exact sweepGood_read hg (hs s hsw) hread

/-- No handle sees the deleter of a version that its own transaction created. -/
def OwnGood (w : Store K V) : Prop :=
  ∀ v ∈ w.versions, ∀ h ∈ w.txns.holders, h.txn.txn_id = v.xmin → v.xmax ≠ 0 →
    h.txn.snapshot.is_committed v.xmax w.tm = false

theorem ownGood_step (hg : w.Good) (ho : w.OwnGood) (hs : w.step e = some w') : w'.OwnGood := by
  have hg' := good_step hg hs
  have hl := later_step hg hs
  intro v' hv' h hm hid h0
  by_cases hold : h ∈ w.txns.holders
  swap
  · exact absurd (hid ▸ hg'.xmin v' hv') (not_wrote_of_taken hg hs hold hm)
  rw [Txns.sees_stable hg.txns hg'.txns hl.txns hold]
  obtain ⟨i, hi⟩ := List.mem_iff_getElem?.mp hv'
  cases hv : w.versions[i]? with
  | none =>
    -- A version of this step has no deleter yet.
    cases step_kind hg hs with
    | txn e txns h1 eq | sweep s eq => subst eq; rw [hi] at hv; simp at hv
    | create t key val hp eq =>
      subst eq
      rw [put_version_getElem?] at hi
      split at hi
      · cases hi; exact absurd rfl h0
      · rw [hi] at hv; simp at hv
    | stamp txn slot u hr hu hx eq =>
      subst eq
      rw [put_stamp_getElem? _ hu] at hi
      split at hi
      · next he => subst he; rw [hu] at hv; simp at hv
      · rw [hi] at hv; simp at hv
  | some v =>
    obtain ⟨u, hu, hvl⟩ := hl.versions i v hv
    rw [hi] at hu
    cases hu
    rcases hvl.xmax with he | ⟨_, hns⟩
    · rw [he] at h0 ⊢
      exact ho v (List.mem_of_getElem? hv) h hold (hid.trans hvl.xmin) h0
    · exact sees_eq_false_of_not_final hg hold h0 hns

theorem sweepsGood_run {es : List (StoreEvent K V)} (h : Runs.run step new es = some w) :
    w.Good ∧ w.SweepsGood ∧ w.OwnGood := by
  refine Runs.inv_run (I := fun w => w.Good ∧ w.SweepsGood ∧ w.OwnGood) ?_ ?_ h
  · rintro s e s' ⟨hg, hs, ho⟩ he
    exact ⟨good_step hg he, sweepsGood_step hg hs he, ownGood_step hg ho he⟩
  · exact ⟨good_new, fun s hs => by simp [new] at hs, fun v hv => by simp [new] at hv⟩

/-- The snapshots that the law speaks of count everything below the horizon as settled. -/
theorem bounds_of_live_or_later {q : List (StoreEvent K V)} {h : Holder} (hg : w.Good)
    (hs : w.SweepGood s) (hrun : Runs.run step w q = some w') (hm : h ∈ w'.txns.holders)
    (hlive : h ∈ w.txns.holders → w.txns.Live h) :
    ∀ x < s.horizon, x < h.txn.snapshot.xmax ∧ x ∉ h.txn.snapshot.active := by
  intro x hx
  by_cases hold : h ∈ w.txns.holders
  · exact hs.live h hold (hlive hold) x hx
  -- The first step that shows the holder is the one that took its snapshot.
  induction q generalizing w with
  | nil => cases hrun; exact absurd hm hold
  | cons e q ih =>
    obtain ⟨w₁, he, hrest⟩ := Runs.run_cons.mp hrun
    have hs₁ := hs.step hg he
    by_cases hold₁ : h ∈ w₁.txns.holders
    · cases step_kind hg he with
      | txn e txns h1 eq =>
        subst eq
        exact bounds_of_taken hg.txns h1 hold hold₁
          (or_iff_not_imp_left.mpr fun h0 => hs₁.below x h0 hx)
      | create t key val hp eq | stamp txn slot v hr hv hd eq | sweep s' eq =>
        subst eq; exact absurd hold₁ hold
    · exact ih (good_step hg he) hs₁ hrest (fun h => absurd h hold₁) hold₁

/-- Vacuum removes only what nobody can see. Once `is_vacuumable` has answered true for a
version, no snapshot in use at that moment and none taken later shows it, now or ever. A
transaction's own handle shows it only by the own-write rule, and only when that
transaction is the creator and has already aborted. -/
theorem a_vacuumable_version_is_shown_to_no_one {w w' : Store K V}
    {p q : List (StoreEvent K V)} {s : Sweep} {h : Holder} {v : Version K V}
    (hbefore : Runs.run step new p = some w) (hs : w.sweep = some s)
    (hanswer : s.stage = .answered true) (hafter : Runs.run step w q = some w')
    (hm : h ∈ w'.txns.holders) (hlive : h ∈ w.txns.holders → w.txns.Live h)
    (hv : w'.versions[s.slot]? = some v) :
    is_visible v.xmin v.xmax h.txn.snapshot w'.tm = false ∧
      (h.txn.is_visible v.xmin v.xmax w'.tm = true →
        v.xmin = h.txn.txn_id ∧ w'.tm.is_aborted v.xmin = true) := by
  obtain ⟨hg, hsw, ho⟩ := sweepsGood_run hbefore
  obtain ⟨hg', _, ho'⟩ := sweepsGood_run (Runs.run_append.mpr ⟨w, hbefore, hafter⟩)
  have hl := later_run hg hafter
  have hgood := hsw s hs
  have hmem := List.mem_of_getElem? hv
  obtain ⟨u, hu, hc, hd⟩ := hgood.pick.later hl (by simp [hanswer])
  rw [hv] at hu
  cases hu
  have hstage := hgood.stage.later hl
  simp only [StageGood, hanswer] at hstage
  rcases hstage with hab | ⟨h0, hx, hp⟩
  · rw [← hc] at hab
    have hunseen := sees_eq_false_of_aborted hg' hm (hg'.wrote_ne_zero (hg'.xmin v hmem)) hab
    have haborted : w'.tm.is_aborted v.xmin = true := by
      rw [is_aborted_iff, hg'.txns.clog]; exact hab
    have hinvisible : is_visible v.xmin v.xmax h.txn.snapshot w'.tm = false := by
      rw [Bool.eq_false_iff, ne_eq, is_visible_iff]
      simp [hunseen]
    refine ⟨hinvisible, fun hvis => ?_⟩
    have := (transaction_is_visible_iff.mp hvis).2
    exact ⟨this.resolve_right (by simp [hinvisible]), haborted⟩
  · have hxmax : v.xmax = s.xmax := by
      rcases hd with he | he | he
      · exact he
      · exact absurd he h0
      · simp [Aborted, hp] at he
    have hseen : h.txn.snapshot.is_committed v.xmax w'.tm = true := by
      obtain ⟨hlt, hna⟩ := bounds_of_live_or_later hg hgood hafter hm hlive s.xmax hx
      rw [hg'.txns.sees_iff hm, hxmax]
      exact Or.inr ⟨hlt, hna, hp⟩
    have hinvisible : is_visible v.xmin v.xmax h.txn.snapshot w'.tm = false := by
      rw [Bool.eq_false_iff, ne_eq, is_visible_iff]
      rintro ⟨_, he | he⟩
      · exact h0 (hxmax ▸ he)
      · simp [hseen] at he
    refine ⟨hinvisible, fun hvis => ?_⟩
    rcases (transaction_is_visible_iff.mp hvis).2 with hown | hother
    · have := ho' v hmem h hm hown.symm (by rw [hxmax]; exact h0)
      simp [hseen] at this
    · simp [hinvisible] at hother

/-- A compaction finds the row deleted, and a reader that comes later does not see it. -/
theorem a_deleted_row_is_vacuumable_and_hidden :
    ∃ w w' : Store Nat Nat,
      Runs.run step new (createAndCommit ++ deleteAndCommit ++
        [.sweep_start, .sweep_pick 0, .sweep_read, .sweep_read]) = some w ∧
      w.sweep = some ⟨3, 0, 1, 2, .answered true⟩ ∧
      w.step (.txn .read_snapshot) = some w' ∧
      is_visible 1 2 ⟨3, 3, []⟩ w'.tm = false := by
  refine ⟨_, _, rfl, rfl, rfl, ?_⟩
  exact (a_vacuumable_version_is_shown_to_no_one (q := [.txn .read_snapshot])
    (h := ⟨⟨u64Max, ⟨3, 3, []⟩⟩, some 0⟩) (v := ⟨7, 70, 1, 2⟩)
    (p := createAndCommit ++ deleteAndCommit ++
      [.sweep_start, .sweep_pick 0, .sweep_read, .sweep_read])
    rfl rfl rfl rfl (by decide) (by decide) rfl).1

end FluxDB.Store
