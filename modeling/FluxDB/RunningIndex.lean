-- The index while it runs, as far as its pages and its log go: latched sections change pages
-- and append records, pages are written to disk at any time between sections with the log
-- flushed first, and clean pages are dropped and loaded again.
import FluxDB.Lib.Runs
import FluxDB.LoggedChanges

namespace FluxDB

open Bytes List Function Except

namespace Running

/-! ## The system -/

/-- The pages in memory and on disk, which of them are dirty, the records appended so far,
oldest first, and how many of them are durable. Record `k` of the list has LSN `k + 1`.
`hist` remembers the pages right after each LSN. -/
structure World where
  mem : UInt64 → Page
  disk : UInt64 → Page
  dirty : UInt64 → Bool
  log : List Change
  flushed : Nat
  hist : Nat → UInt64 → Page

inductive Event
  | change (c : Change)
  | clear_flag (page : UInt64)
  | write_page (page : UInt64)
  | flush_up_to (lsn : Nat)
  | reload (page : UInt64)

/-- The superblock, the root leaf and the bitmap of a new index. -/
def created (p : UInt64) : Page :=
  if p = 0 then Meta.set_free_space (Meta.init 1) 2
  else if p = 1 then Leaf.new 1
  else if p = 2 then FreeSpace.init 2
  else Page.zero

/-- A new index, with its three pages flushed. -/
def create : World where
  mem := created
  disk := fun p => (created p).stamp_checksum
  dirty := fun _ => false
  log := []
  flushed := 0
  hist := fun _ => created

/-- The pages after the steps of a section, one page after the other. -/
def applyEffects (mem : UInt64 → Page) (es : List (UInt64 × (Page → Except PageFault Page))) :
    Except PageFault (UInt64 → Page) :=
  es.foldlM (fun mem e => do
    let b ← e.2 (mem e.1)
    .ok (update mem e.1 b)) mem

def pages (c : Change) : List UInt64 := c.entry.blocks.map Block.page_id

/-- One step. The pages of a section are latched together, so they are distinct. -/
def step (canon : Bytes → Bytes) (w : World) : Event → Option World
  | .change c =>
    if w.log.length + 1 < 2 ^ 64 ∧ (pages c).Nodup then
      match applyEffects w.mem (c.effects canon (w.log.length + 1)) with
      | .ok mem => some { w with
          mem
          dirty := fun p => w.dirty p || decide (p ∈ pages c)
          log := w.log ++ [c]
          hist := update w.hist (w.log.length + 1) mem }
      | .error _ => none
    else none
  | .clear_flag page =>
    match (w.mem page).clear_incomplete_split with
    | .ok b => some { w with
        mem := update w.mem page b
        dirty := update w.dirty page true }
    | .error _ => none
  | .write_page page => some { w with
      disk := update w.disk page (w.mem page).stamp_checksum
      dirty := update w.dirty page false
      flushed := max w.flushed (w.mem page).page_lsn }
  | .flush_up_to lsn => some { w with flushed := max w.flushed (min lsn w.log.length) }
  | .reload page =>
    if w.dirty page then none
    else some { w with mem := update w.mem page (w.disk page) }

/-! ## What a section leaves -/

variable {canon : Bytes → Bytes}

theorem applyEffects_ok {es : List (UInt64 × (Page → Except PageFault Page))}
    {mem mem' : UInt64 → Page} (hnodup : (es.map Prod.fst).Nodup)
    (h : applyEffects mem es = .ok mem') :
    (∀ p f, (p, f) ∈ es → f (mem p) = .ok (mem' p)) ∧
      ∀ p, p ∉ es.map Prod.fst → mem' p = mem p := by
  induction es generalizing mem with
  | nil =>
    cases h
    exact ⟨by simp, fun p _ => rfl⟩
  | cons e es ih =>
    obtain ⟨p0, f0⟩ := e
    simp only [map_cons, nodup_cons] at hnodup
    unfold applyEffects at h
    rw [foldlM_cons] at h
    obtain ⟨mem1, h1, h⟩ := bind_eq_ok.mp h
    obtain ⟨b, hb, h1⟩ := bind_eq_ok.mp h1
    cases h1
    obtain ⟨hin, hout⟩ := ih hnodup.2 h
    refine ⟨fun p f hpf => ?_, fun p hp => ?_⟩
    · rcases mem_cons.mp hpf with heq | hpf'
      · cases heq
        rw [hout p0 hnodup.1, update_self]
        exact hb
      have hne : p ≠ p0 := by
        rintro rfl
        exact hnodup.1 (mem_map_of_mem hpf')
      have := hin p f hpf'
      rwa [update_of_ne hne] at this
    simp only [map_cons, mem_cons, not_or] at hp
    rw [hout p hp.2, update_of_ne hp.1]

theorem page_lsn_of_set_lsn {b b' : Page} {lsn : Nat} (hlsn : lsn < 2 ^ 64)
    (h : b.set_lsn lsn = .ok b') : b'.page_lsn = lsn := by
  cases h
  unfold Page.page_lsn
  have hslice := b.slice_put OFF_LSN (leBytes 8 lsn)
  rw [length_leBytes] at hslice
  rw [hslice]
  exact leNat_leBytes_of_lt hlsn

theorem page_lsn_of_redo_page {entry_type : WalRecordType} {lsn i : Nat} {block : Block}
    {b b' : Page} (hlsn : lsn < 2 ^ 64)
    (h : redo_page canon entry_type lsn i block b = .ok b') : b'.page_lsn = lsn := by
  obtain ⟨b1, _, h⟩ := bind_eq_ok.mp h
  exact page_lsn_of_set_lsn hlsn h

/-- What a section did: it started from pages that count as `before` and left `after`. -/
structure Did (canon : Bytes → Bytes) (c : Change) (lsn : Nat)
    (before after : UInt64 → Page) : Prop where
  lsn_lt : lsn < 2 ^ 64
  nodup : (pages c).Nodup
  fits : c.entry.Fits
  redone : ∀ {i : Nat} {block : Block}, c.entry.blocks[i]? = some block → ∀ {q : Page},
    Same q (before block.page_id) →
    ∃ q', redo_page canon c.entry.entry_type lsn i (Change.readBack block) q = .ok q' ∧
      Same q' (after block.page_id)
  untouched : ∀ {p : UInt64}, p ∉ pages c → Same (after p) (before p)

namespace Did

variable {c : Change} {lsn : Nat} {mem before after : UInt64 → Page}

theorem of_applyEffects (hlsn : lsn < 2 ^ 64) (hnodup : (pages c).Nodup) (hfree : c.FreeFits)
    (hsame : ∀ p, Same (mem p) (before p))
    (h : applyEffects mem (c.effects canon lsn) = .ok after) : Did canon c lsn before after := by
  have hperm := Change.pages_perm canon lsn c
  obtain ⟨hin, hout⟩ := applyEffects_ok (hperm.nodup_iff.mpr hnodup) h
  refine ⟨hlsn, hnodup, ?_, ?_, ?_⟩
  · apply Change.entry_fits hfree
    rintro ⟨p, f⟩ hpf
    exact ⟨mem p, after p, hin p f hpf⟩
  · intro i block hblock q hq
    obtain ⟨f, hf, hredo⟩ := Change.redone canon lsn c hblock
    exact hredo (hq.trans (hsame _).symm) (hin _ f hf)
  intro p hp
  rw [hout p fun hmem => hp (hperm.mem_iff.mp hmem)]
  exact hsame p

theorem page_lsn (h : Did canon c lsn before after) {p : UInt64} (hp : p ∈ pages c) :
    (after p).page_lsn = lsn := by
  obtain ⟨block, hblock, rfl⟩ := mem_map.mp hp
  obtain ⟨i, hi⟩ := mem_iff_getElem?.mp hblock
  obtain ⟨q', hq', hsame⟩ := h.redone hi (.refl _)
  rw [← hsame.page_lsn]
  exact page_lsn_of_redo_page h.lsn_lt hq'

end Did

/-! ## The invariant -/

/-- The pages in memory are those of the last LSN; every page of an LSN is the page of the LSN
it carries; every image on disk is the page of the LSN it carries, and that LSN is durable. -/
structure Good (canon : Bytes → Bytes) (w : World) : Prop where
  now : ∀ p, Same (w.mem p) (w.hist w.log.length p)
  carried : ∀ k p, k ≤ w.log.length → (w.hist k p).page_lsn ≤ k ∧
    Same (w.hist k p) (w.hist (w.hist k p).page_lsn p)
  did : ∀ k c, w.log[k]? = some c → Did canon c (k + 1) (w.hist k) (w.hist (k + 1))
  durable : ∀ p, (w.disk p).page_lsn ≤ w.flushed ∧ (w.disk p).verify_checksum ∧
    Same (w.disk p) (w.hist (w.disk p).page_lsn p)
  clean : ∀ p, w.dirty p = false → Same (w.disk p) (w.mem p)
  flushed_le : w.flushed ≤ w.log.length

/-- The condition on a step: a free record does not overflow its length field. -/
def FreesFit (_ : World) : Event → Prop
  | .change c => c.FreeFits
  | _ => True

instance (w : World) (e : Event) : Decidable (FreesFit w e) := by
  cases e <;> unfold FreesFit <;> infer_instance

theorem page_lsn_created (p : UInt64) : (created p).page_lsn = 0 := by
  unfold created
  split
  · decide
  split
  · decide
  split
  · decide
  · decide

theorem good_create : Good canon create where
  now p := Same.refl _
  carried k p hk := by
    obtain rfl : k = 0 := Nat.le_zero.mp hk
    change (created p).page_lsn ≤ 0 ∧ Same (created p) (created p)
    rw [page_lsn_created]
    exact ⟨le_rfl, .refl _⟩
  did k c h := by cases h
  durable p := by
    obtain ⟨hsame, hverify⟩ := Same.stamp_checksum_verifies (created p)
    change (created p).stamp_checksum.page_lsn ≤ 0 ∧ _
    rw [hsame.page_lsn, page_lsn_created]
    exact ⟨le_rfl, hverify, hsame⟩
  clean p _ := (Same.stamp_checksum_verifies (created p)).1
  flushed_le := le_rfl

namespace Good

variable {w : World}

section

variable (h : Good canon w)

include h

theorem change {c : Change} (hfree : c.FreeFits) {mem : UInt64 → Page}
    (hlsn : w.log.length + 1 < 2 ^ 64) (hnodup : (pages c).Nodup)
    (hmem : applyEffects w.mem (c.effects canon (w.log.length + 1)) = .ok mem) :
    Good canon { w with
      mem
      dirty := fun p => w.dirty p || decide (p ∈ pages c)
      log := w.log ++ [c]
      hist := update w.hist (w.log.length + 1) mem } := by
  have hdid := Did.of_applyEffects hlsn hnodup hfree h.now hmem
  have hlen : (w.log ++ [c]).length = w.log.length + 1 := by simp
  have hnew : update w.hist (w.log.length + 1) mem (w.log.length + 1) = mem :=
    update_self ..
  have hold : ∀ {k}, k ≤ w.log.length →
      update w.hist (w.log.length + 1) mem k = w.hist k := fun hk =>
    update_of_ne (by omega) ..
  refine ⟨fun p => ?_, fun k p hk => ?_, fun k c' hc => ?_, fun p => ?_, fun p hp => ?_, ?_⟩
  · dsimp only
    rw [hlen, hnew]
    exact .refl _
  · dsimp only at hk ⊢
    rw [hlen] at hk
    by_cases hkn : k ≤ w.log.length
    · obtain ⟨hle, hsame⟩ := h.carried k p hkn
      rw [hold hkn, hold (hle.trans hkn)]
      exact ⟨hle, hsame⟩
    obtain rfl : k = w.log.length + 1 := by omega
    rw [hnew]
    by_cases hp : p ∈ pages c
    · rw [hdid.page_lsn hp, hnew]
      exact ⟨le_rfl, .refl _⟩
    -- An untouched page still carries the LSN it had.
    have hsame := hdid.untouched hp
    obtain ⟨hle, hcar⟩ := h.carried w.log.length p le_rfl
    rw [hsame.page_lsn, hold hle]
    exact ⟨by omega, hsame.trans hcar⟩
  · dsimp only at hc ⊢
    rcases Maps.getElem?_concat_cases hc with hc | ⟨rfl, rfl⟩
    · have hk := Maps.lt_of_getElem? hc
      rw [hold hk.le, hold hk]
      exact h.did k c' hc
    rw [hold le_rfl, hnew]
    exact hdid
  · obtain ⟨hle, hverify, hsame⟩ := h.durable p
    refine ⟨hle, hverify, ?_⟩
    dsimp only
    rw [hold (hle.trans h.flushed_le)]
    exact hsame
  · simp only [Bool.or_eq_false_iff, decide_eq_false_iff_not] at hp
    have hnow : Same (w.mem p) (mem p) := (h.now p).trans (hdid.untouched hp.2).symm
    exact (h.clean p hp.1).trans hnow
  dsimp only
  rw [hlen]
  exact h.flushed_le.trans (Nat.le_succ _)

/-- A step that appends nothing and leaves every page in memory as it counts. -/
theorem keep {mem disk : UInt64 → Page} {dirty : UInt64 → Bool} {flushed : Nat}
    (hmem : ∀ p, Same (mem p) (w.mem p))
    (hdisk : ∀ p, (disk p).page_lsn ≤ flushed ∧ (disk p).verify_checksum ∧
      Same (disk p) (w.hist (disk p).page_lsn p))
    (hclean : ∀ p, dirty p = false → Same (disk p) (mem p)) (hle : flushed ≤ w.log.length) :
    Good canon { w with mem, disk, dirty, flushed } :=
  ⟨fun p => (hmem p).trans (h.now p), h.carried, h.did, hdisk, hclean, hle⟩

theorem clear_flag {page : UInt64} {b : Page}
    (hb : (w.mem page).clear_incomplete_split = .ok b) :
    Good canon { w with
      mem := update w.mem page b
      dirty := update w.dirty page true } := by
  refine h.keep (fun p => ?_) h.durable (fun p hp => ?_) h.flushed_le
  · by_cases hpp : p = page
    · subst hpp
      rw [update_self]
      exact .of_clear_incomplete_split hb
    rw [update_of_ne hpp]
    exact .refl _
  by_cases hpp : p = page
  · subst hpp
    rw [update_self] at hp
    cases hp
  rw [update_of_ne hpp] at hp ⊢
  exact h.clean p hp

/-- A page that is written carries an LSN that the log was flushed up to. -/
theorem write_page (page : UInt64) : Good canon { w with
      disk := update w.disk page (w.mem page).stamp_checksum
      dirty := update w.dirty page false
      flushed := max w.flushed (w.mem page).page_lsn } := by
  obtain ⟨hstamp, hverify⟩ := Same.stamp_checksum_verifies (w.mem page)
  have hnow := h.now page
  obtain ⟨hle, hcar⟩ := h.carried w.log.length page le_rfl
  rw [← hnow.page_lsn] at hle hcar
  refine h.keep (fun p => .refl _) (fun p => ?_) (fun p hp => ?_) (max_le h.flushed_le hle)
  · by_cases hpp : p = page
    · subst hpp
      rw [update_self, hstamp.page_lsn]
      exact ⟨le_max_right _ _, hverify, (hstamp.trans hnow).trans hcar⟩
    rw [update_of_ne hpp]
    obtain ⟨h1, h2, h3⟩ := h.durable p
    exact ⟨h1.trans (le_max_left _ _), h2, h3⟩
  by_cases hpp : p = page
  · subst hpp
    rw [update_self]
    exact hstamp
  rw [update_of_ne hpp] at hp ⊢
  exact h.clean p hp

theorem flush_up_to (lsn : Nat) :
    Good canon { w with flushed := max w.flushed (min lsn w.log.length) } := by
  refine h.keep (fun p => .refl _) (fun p => ?_) h.clean ?_
  · obtain ⟨h1, h2, h3⟩ := h.durable p
    exact ⟨h1.trans (le_max_left _ _), h2, h3⟩
  · exact max_le h.flushed_le (min_le_right _ _)

theorem reload {page : UInt64} (hclean : w.dirty page = false) :
    Good canon { w with mem := update w.mem page (w.disk page) } := by
  refine h.keep (fun p => ?_) h.durable (fun p hp => ?_) h.flushed_le
  · by_cases hpp : p = page
    · subst hpp
      rw [update_self]
      exact h.clean p hclean
    rw [update_of_ne hpp]
    exact .refl _
  by_cases hpp : p = page
  · subst hpp
    rw [update_self]
    exact .refl _
  rw [update_of_ne hpp]
  exact h.clean p hp

end

end Good

theorem good_step {w w' : World} {e : Event} (h : Good canon w) (hok : FreesFit w e)
    (hstep : step canon w e = some w') : Good canon w' := by
  cases e with
  | change c =>
    simp only [step] at hstep
    split at hstep
    · rename_i hguard
      split at hstep
      · rename_i mem hmem
        cases hstep
        exact h.change hok hguard.1 hguard.2 hmem
      · cases hstep
    · cases hstep
  | clear_flag page =>
    simp only [step] at hstep
    split at hstep
    · rename_i b hb
      cases hstep
      exact h.clear_flag hb
    · cases hstep
  | write_page page =>
    cases hstep
    exact h.write_page page
  | flush_up_to lsn =>
    cases hstep
    exact h.flush_up_to lsn
  | reload page =>
    simp only [step] at hstep
    split at hstep
    · cases hstep
    rename_i hclean
    cases hstep
    exact h.reload (Bool.eq_false_of_not_eq_true hclean)

end Running

end FluxDB
