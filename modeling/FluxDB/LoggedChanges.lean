-- The changes that the running index logs: for each kind of record, what the latched section
-- does to every page it names. Redoing the record on an image that counts as the same leaves
-- an image that again counts as the same.
import FluxDB.Recovery
import FluxDB.SamePages

namespace FluxDB

open Bytes Payload List Except Page Internal

/-- A latched section that appends one record. Where the record holds a full-page image, the
section has rebuilt the page to that image before it logs it. -/
inductive Change
  | insert (txn page : UInt64) (slot : Nat) (key value : Bytes) (rec_type : UInt8)
  | set_xmax (txn page : UInt64) (slot : Nat)
  | commit (txn : UInt64)
  | abort (txn : UInt64)
  | leaf_split (left right : UInt64 × Page) (old_neighbour : Option (UInt64 × Page))
  | internal_split (left right : UInt64 × Page)
  | insert_downlink (parent : UInt64) (index : Nat) (sep_key : Bytes)
      (right_child left_child : UInt64)
  | new_root (root : UInt64 × Page) (left_child : UInt64)
  | page_compact (page : UInt64) (image : Page)
  | mark_half_dead (page : UInt64)
  | unlink_page (deleted : UInt64) (left right : Option UInt64) (parent : UInt64) (index : Nat)
      (keep_right_child : Bool)
  | overflow_write (txn page : UInt64) (image : Page)
  | overflow_free (first : UInt64) (others : List UInt64)

namespace Change

/-- The record of the change. -/
def entry : Change → Entry
  | insert txn page slot key value rec_type => log_insert txn page slot key value rec_type txn
  | set_xmax txn page slot => log_set_xmax txn page slot txn
  | commit txn => log_commit txn
  | abort txn => log_abort txn
  | leaf_split left right old => log_leaf_split SYSTEM_TXN_ID left right old
  | internal_split left right => log_internal_split SYSTEM_TXN_ID left right
  | insert_downlink parent index sep_key right_child left_child =>
    log_insert_downlink SYSTEM_TXN_ID parent index sep_key right_child left_child
  | new_root root left_child => log_new_root SYSTEM_TXN_ID root left_child
  | page_compact page image => log_page_compact SYSTEM_TXN_ID page image
  | mark_half_dead page => log_mark_half_dead SYSTEM_TXN_ID page
  | unlink_page deleted left right parent index keep =>
    log_unlink_page SYSTEM_TXN_ID deleted left right parent index keep
  | overflow_write txn page image => log_overflow_write txn page image
  | overflow_free first others => log_overflow_free SYSTEM_TXN_ID (first :: others)

/-! ## What the sections do to their pages -/

def insertPage (txn : UInt64) (slot : Nat) (key value : Bytes) (rec_type : UInt8) (lsn : Nat)
    (b : Page) : Except PageFault Page := do
  Leaf.mutator b
  let b ← Leaf.insert_raw b slot key value rec_type
  let b ← Leaf.set_xmin b slot txn
  b.set_lsn lsn

def setXmaxPage (txn : UInt64) (slot lsn : Nat) (b : Page) : Except PageFault Page := do
  Leaf.mutator b
  let b ← Leaf.set_xmax b slot txn
  b.set_lsn lsn

def imagePage (image : Page) (lsn : Nat) (_ : Page) : Except PageFault Page := image.set_lsn lsn

/-- The parent takes the downlink only after `can_fit` has passed. -/
def downlinkPage (canon : Bytes → Bytes) (index : Nat) (sep_key : Bytes)
    (right_child : UInt64) (lsn : Nat) (b : Page) : Except PageFault Page := do
  Internal.mutator b
  let fits ← Internal.can_fit b sep_key.length
  if fits then do
    let b ← Internal.insert_key_and_right_child b index (canon sep_key) right_child
    b.set_lsn lsn
  else .error (.InsufficientSpace (8 + 4 + sep_key.length) 0)

def clearPage (lsn : Nat) (b : Page) : Except PageFault Page := do
  let b ← b.clear_incomplete_split
  b.set_lsn lsn

def rootPage (root : UInt64) (lsn : Nat) (b : Page) : Except PageFault Page := do
  let b ← Meta.set_root b root
  b.set_lsn lsn

def halfDeadPage (lsn : Nat) (b : Page) : Except PageFault Page := do
  let b ← b.set_half_dead
  Leaf.mutator b
  b.set_lsn lsn

/-- The parent of an unlinked leaf is stamped before the separator goes. -/
def parentPage (index : Nat) (keep : ChildSide) (lsn : Nat) (b : Page) : Except PageFault Page := do
  Internal.mutator b
  let b ← b.set_lsn lsn
  Internal.remove_key_at b index keep

def leftPage (right : Option UInt64) (lsn : Nat) (b : Page) : Except PageFault Page := do
  Leaf.mutator b
  let b ← b.set_lsn lsn
  Leaf.set_rightlink b right

def rightPage (left : Option UInt64) (lsn : Nat) (b : Page) : Except PageFault Page := do
  Leaf.mutator b
  let b ← b.set_lsn lsn
  Leaf.set_prev_page b left

/-- The pages of the section in the order it changes them. -/
def effects (canon : Bytes → Bytes) (lsn : Nat) :
    Change → List (UInt64 × (Page → Except PageFault Page))
  | insert txn page slot key value rec_type =>
    [(page, insertPage txn slot key value rec_type lsn)]
  | set_xmax txn page slot => [(page, setXmaxPage txn slot lsn)]
  | commit _ => []
  | abort _ => []
  | leaf_split left right old =>
    [(left.1, imagePage left.2 lsn), (right.1, imagePage right.2 lsn)] ++
      old.toList.map fun old => (old.1, imagePage old.2 lsn)
  | internal_split left right =>
    [(left.1, imagePage left.2 lsn), (right.1, imagePage right.2 lsn)]
  | insert_downlink parent index sep_key right_child left_child =>
    [(parent, downlinkPage canon index sep_key right_child lsn), (left_child, clearPage lsn)]
  | new_root root left_child =>
    [(root.1, imagePage root.2 lsn), (0, rootPage root.1 lsn), (left_child, clearPage lsn)]
  | page_compact page image => [(page, imagePage image lsn)]
  | mark_half_dead page => [(page, halfDeadPage lsn)]
  | unlink_page _ left right parent index keep =>
    [(parent, parentPage index (if keep then .Right else .Left) lsn)] ++
      (left.toList.map fun p => (p, leftPage right lsn)) ++
      (right.toList.map fun p => (p, rightPage left lsn))
  | overflow_write _ page image => [(page, imagePage image lsn)]
  | overflow_free _ _ => []

end Change

/-! ## Redo follows the section -/

/-- Wherever the section succeeds, the redo of its block succeeds on any image that counts as
the same, and leaves one that counts as the same. -/
def Redoes (redo f : Page → Except PageFault Page) : Prop :=
  ∀ {q b b' : Page}, Same q b → f b = .ok b' → ∃ q', redo q = .ok q' ∧ Same q' b'

variable {f : Page → Except PageFault Page} {b' : Page} {index : Nat} {key : Bytes}

theorem Redoes.of_alike {redo : Page → Except PageFault Page}
    (h : ∀ q b, Same q b → Alike Same (redo q) (f b)) : Redoes redo f := by
  intro q b b' hs hf
  exact (h q b hs).ok_of_ok hf

/-- The section may do more checks than the function that redo follows. -/
theorem Redoes.of_checked {redo g : Page → Except PageFault Page}
    (hfg : ∀ {b b'}, f b = .ok b' → g b = .ok b') (h : Redoes redo g) : Redoes redo f :=
  fun hs hf => h hs (hfg hf)

namespace Same

variable {q b : Page}

/-- A mutator checks the type of its page, which two images that count as the same share. -/
theorem mutator_alike {page_type : UInt8} (h : Same q b)
    (hf : ∀ {q b}, OfType page_type q b → Alike (OfType page_type) (f q) (f b)) :
    Alike (OfType page_type)
      (do (if q OFF_PAGE_TYPE = page_type then .ok () else .error .panic); f q)
      (do (if b OFF_PAGE_TYPE = page_type then .ok () else .error .panic); f b) := by
  rw [h.page_type]
  by_cases hty : b OFF_PAGE_TYPE = page_type
  · rw [if_pos hty]
    exact hf ⟨h, h.page_type.trans hty⟩
  rw [if_neg hty]
  exact Alike.error _

end Same

/-! ## Payloads -/

namespace Payload

variable {d : Bytes} {off len v : Nat}

@[simp] theorem part_append (xs : Bytes) (h : xs.length ≤ off) :
    part (xs ++ d) off len = part d (off - xs.length) len := by
  unfold part
  rw [drop_append, drop_eq_nil_of_le h, nil_append, length_append]
  congr 1
  rw [eq_iff_iff]
  omega

@[simp] theorem part_cons (x : UInt8) (h : 1 ≤ off) :
    part (x :: d) off len = part d (off - 1) len :=
  part_append [x] h

@[simp] theorem part_start (xs d : Bytes) : part (xs ++ d) 0 xs.length = .ok xs := by
  simp [part]

@[simp] theorem part_self : part d 0 d.length = .ok d := by simp [part]

@[simp] theorem field_append (xs : Bytes) (h : xs.length ≤ off) :
    field (xs ++ d) off len = field d (off - xs.length) len := by
  rw [field, part_append xs h, field]

@[simp] theorem field_cons (x : UInt8) (h : 1 ≤ off) :
    field (x :: d) off len = field d (off - 1) len :=
  field_append [x] h

@[simp] theorem field_byte (x : UInt8) : field (x :: d) 0 1 = .ok x.toNat := by
  simp [field, part, ok_bind, leNat]

@[simp] theorem field_start (h : v < 256 ^ len) : field (leBytes len v ++ d) 0 len = .ok v := by
  have hpart := part_start (leBytes len v) d
  rw [length_leBytes] at hpart
  rw [field, hpart, ok_bind, leNat_leBytes_of_lt h]

@[simp] theorem field_self (h : v < 256 ^ len) : field (leBytes len v) 0 len = .ok v := by
  simpa using field_start (d := []) h

@[simp] theorem toNat_lt (x : UInt64) : x.toNat < 18446744073709551616 := x.toNat_lt

/-- No link and a link to page 0 are written the same way. -/
theorem link_getD (p : Option UInt64) : (link (p.getD 0).toNat).getD 0 = p.getD 0 := by
  unfold link
  by_cases h : (p.getD 0).toNat = 0
  · rw [if_neg (by simpa using h)]
    exact UInt64.toNat_inj.mp h.symm
  rw [if_pos h]
  simp

end Payload

/-! ## Sizes that a successful section implies -/

theorem read_nat_lt {n : Nat} {b : Page} {off v : Nat} (h : read_nat n b off = .ok v) :
    v < 256 ^ n := by
  unfold read_nat at h
  obtain ⟨bs, hbs, hv⟩ := bind_eq_ok.mp h
  unfold read_bytes at hbs
  split at hbs
  · cases hbs
    cases hv
    have := leNat_lt (b.slice off n)
    rwa [length_slice] at this
  · cases hbs

theorem Leaf.sizes_of_insert_raw {b : Page} {pos : Nat} {val : Bytes} {rec_type : UInt8}
    (h : Leaf.insert_raw b pos key val rec_type = .ok b') :
    pos < 65536 ∧ 24 + key.length + val.length < 65536 := by
  unfold Leaf.insert_raw at h
  obtain ⟨free_end, hend, h⟩ := bind_eq_ok.mp h
  obtain ⟨free_start, _, h⟩ := bind_eq_ok.mp h
  have hlt : free_end < 65536 := read_nat_lt hend
  split at h
  · cases h
  split at h
  · cases h
  rename_i hfit
  obtain ⟨b1, _, h⟩ := bind_eq_ok.mp h
  unfold Leaf.write_slot at h
  obtain ⟨hkl, _, h⟩ := bind_eq_ok.mp h
  obtain ⟨n, hn, h⟩ := bind_eq_ok.mp h
  have hn' : n < 65536 := read_nat_lt hn
  split at h
  · cases h
  unfold Leaf.SLOT_SIZE Leaf.rec_total_size Leaf.REC_HEADER_SIZE align2 at hfit
  omega

theorem Leaf.slot_of_set_xmax {b : Page} {pos : Nat} {xmax : UInt64}
    (h : Leaf.set_xmax b pos xmax = .ok b') : pos < 65536 := by
  unfold Leaf.set_xmax at h
  obtain ⟨hkl, _, h⟩ := bind_eq_ok.mp h
  obtain ⟨base, hbase, _⟩ := bind_eq_ok.mp h
  unfold read_u16 read_nat read_bytes at hbase
  split at hbase
  · rename_i hle
    unfold Leaf.slot_offset_at Leaf.SLOT_SIZE PAGE_SIZE at hle
    omega
  · cases hbase

theorem keys_of_snapshot {b : Page} {children : List Nat} {keys : List Bytes}
    (h : Internal.snapshot b = .ok (children, keys)) : keys.length < 65536 := by
  unfold Internal.snapshot at h
  obtain ⟨n, hn, h⟩ := bind_eq_ok.mp h
  obtain ⟨cs, _, h⟩ := bind_eq_ok.mp h
  obtain ⟨ks, hks, h⟩ := bind_eq_ok.mp h
  cases h
  have hn' : n < 65536 := read_nat_lt hn
  rw [length_of_mapM hks, length_range]
  exact hn'

theorem index_of_insert {b : Page} {right_child : UInt64}
    (h : insert_key_and_right_child b index key right_child = .ok b') : index < 65536 := by
  unfold insert_key_and_right_child at h
  obtain ⟨free, _, h⟩ := bind_eq_ok.mp h
  split at h
  · cases h
  obtain ⟨⟨children, keys⟩, hsnap, h⟩ := bind_eq_ok.mp h
  have := keys_of_snapshot hsnap
  simp only at h
  split at h
  · cases h
  · omega

theorem index_of_remove {b : Page} {keep : ChildSide}
    (h : remove_key_at b index keep = .ok b') : index < 65536 := by
  unfold remove_key_at at h
  obtain ⟨⟨children, keys⟩, hsnap, h⟩ := bind_eq_ok.mp h
  have := keys_of_snapshot hsnap
  simp only at h
  split at h
  · cases h
  · omega

theorem length_of_can_fit {b : Page} {len : Nat} (h : can_fit b len = .ok true) :
    12 + len ≤ PAGE_SIZE := by
  unfold can_fit at h
  obtain ⟨free, hfree, h⟩ := bind_eq_ok.mp h
  unfold free_bytes at hfree
  obtain ⟨used, _, hfree⟩ := bind_eq_ok.mp hfree
  obtain ⟨hkl, _, hfree⟩ := bind_eq_ok.mp hfree
  cases hfree
  simp only [Except.ok.injEq, decide_eq_true_eq] at h
  omega

/-! ## One lemma for each kind of block -/

namespace Change

variable {canon : Bytes → Bytes} {lsn : Nat}

/-- Stamping a page after steps that go alike. -/
theorem stamped (lsn : Nat) {x y : Except PageFault Page} {page_type : UInt8}
    (h : Alike (Same.OfType page_type) x y) :
    Alike Same (do (← x).set_lsn lsn) (do (← y).set_lsn lsn) := by
  apply h.bind
  intro q b hqb
  exact hqb.1.set_lsn_alike lsn

theorem mutator_redoes {page_type : UInt8} (lsn : Nat)
    (hf : ∀ {q b}, Same.OfType page_type q b → Alike (Same.OfType page_type) (f q) (f b)) :
    Redoes (fun q => do
        (← (do (if q OFF_PAGE_TYPE = page_type then .ok () else .error .panic); f q)).set_lsn lsn)
      (fun b => do
        (← (do (if b OFF_PAGE_TYPE = page_type then .ok () else .error .panic); f b)).set_lsn
          lsn) := by
  apply Redoes.of_alike
  intro q b hs
  exact stamped lsn (hs.mutator_alike hf)

theorem redo_insert_eq {slot : Nat} {value : Bytes} (rec_type : UInt8) (xmin : UInt64)
    (hslot : slot < 65536) (hsize : 24 + key.length + value.length < 65536) (q : Page) :
    redo_insert (leBytes 2 slot ++ leBytes 2 key.length ++ leBytes 2 value.length ++
        [rec_type] ++ leBytes 8 xmin.toNat ++ key ++ value) q = (do
      Leaf.mutator q
      let q ← Leaf.insert_raw q slot key value rec_type
      Leaf.set_xmin q slot xmin) := by
  generalize hd : leBytes 2 slot ++ leBytes 2 key.length ++ leBytes 2 value.length ++
    [rec_type] ++ leBytes 8 xmin.toNat ++ key ++ value = d
  have hkey : key.length < 65536 := by omega
  have hvalue : value.length < 65536 := by omega
  have h0 : field d 0 2 = .ok slot := by simp [← hd, hslot]
  have h2 : field d 2 2 = .ok key.length := by simp [← hd, hkey]
  have h4 : field d 4 2 = .ok value.length := by simp [← hd, hvalue]
  have h6 : field d 6 1 = .ok rec_type.toNat := by simp [← hd]
  have h7 : field d 7 8 = .ok xmin.toNat := by simp [← hd]
  have h15 : part d 15 key.length = .ok key := by simp [← hd]
  have hval : part d (15 + key.length) value.length = .ok value := by
    simp [← hd, Nat.add_comm 15]
  unfold redo_insert
  simp only [h0, h2, h4, h6, h7, h15, hval, ok_bind, UInt8.ofNat_toNat, UInt64.ofNat_toNat]

theorem insert_redoes (txn : UInt64) (slot : Nat) (key value : Bytes) (rec_type : UInt8) :
    Redoes (fun q => do
        let q ← redo_insert (leBytes 2 slot ++ leBytes 2 key.length ++ leBytes 2 value.length ++
          [rec_type] ++ leBytes 8 txn.toNat ++ key ++ value) q
        q.set_lsn lsn)
      (insertPage txn slot key value rec_type lsn) := by
  intro q b b' hs hf
  obtain ⟨b1, hb1⟩ : ∃ b1, Leaf.insert_raw b slot key value rec_type = .ok b1 := by
    unfold insertPage at hf
    obtain ⟨_, _, hf⟩ := bind_eq_ok.mp hf
    obtain ⟨b1, hb1, _⟩ := bind_eq_ok.mp hf
    exact ⟨b1, hb1⟩
  obtain ⟨hslot, hsize⟩ := Leaf.sizes_of_insert_raw hb1
  simp only [redo_insert_eq rec_type txn hslot hsize]
  refine mutator_redoes lsn (f := fun q => do
    let q ← Leaf.insert_raw q slot key value rec_type
    Leaf.set_xmin q slot txn) (fun h => ?_) hs
      (by simpa only [insertPage, Leaf.mutator, bind_assoc] using hf)
  apply (Leaf.insert_raw_alike Same.respects_leaf h slot key value rec_type).bind
  intro q b h
  exact Leaf.set_xmin_alike Same.respects_leaf h slot txn

theorem redo_set_xmax_eq {slot : Nat} (xmax : UInt64) (hslot : slot < 65536) (q : Page) :
    redo_set_xmax (leBytes 2 slot ++ leBytes 8 xmax.toNat) q = (do
      Leaf.mutator q
      Leaf.set_xmax q slot xmax) := by
  have h0 : field (leBytes 2 slot ++ leBytes 8 xmax.toNat) 0 2 = .ok slot := by simp [hslot]
  have h2 : field (leBytes 2 slot ++ leBytes 8 xmax.toNat) 2 8 = .ok xmax.toNat := by simp
  unfold redo_set_xmax
  simp only [h0, h2, ok_bind, UInt64.ofNat_toNat]

theorem set_xmax_redoes (txn : UInt64) (slot : Nat) : Redoes (fun q => do
        let q ← redo_set_xmax (leBytes 2 slot ++ leBytes 8 txn.toNat) q
        q.set_lsn lsn)
      (setXmaxPage txn slot lsn) := by
  intro q b b' hs hf
  obtain ⟨b1, hb1⟩ : ∃ b1, Leaf.set_xmax b slot txn = .ok b1 := by
    unfold setXmaxPage at hf
    obtain ⟨_, _, hf⟩ := bind_eq_ok.mp hf
    obtain ⟨b1, hb1, _⟩ := bind_eq_ok.mp hf
    exact ⟨b1, hb1⟩
  simp only [redo_set_xmax_eq txn (Leaf.slot_of_set_xmax hb1)]
  exact mutator_redoes lsn (fun h => Leaf.set_xmax_alike Same.respects_leaf h slot txn) hs
    (by simpa only [setXmaxPage, Leaf.mutator, bind_assoc] using hf)

theorem ofImage_image (image : Page) : Same (Page.ofImage image.image) image := by
  have hbyte : ∀ i, i < PAGE_SIZE → Page.ofImage image.image i = image i := by
    intro i hi
    unfold Page.ofImage Page.image Page.slice
    simp [hi]
  refine ⟨hbyte _ (by decide), by rw [hbyte _ (by decide)], fun i _ hi _ => hbyte i hi⟩

theorem image_redoes (image : Page) :
    Redoes (fun _ => (Page.ofImage image.image).set_lsn lsn) (imagePage image lsn) := by
  apply Redoes.of_alike
  intro q b _
  exact (ofImage_image image).set_lsn_alike lsn

theorem clear_redoes :
    Redoes (fun q => do (← q.clear_incomplete_split).set_lsn lsn) (clearPage lsn) := by
  apply Redoes.of_alike
  intro q b hs
  apply hs.clear_incomplete_split_alike.bind
  intro q b hs
  exact hs.set_lsn_alike lsn

theorem half_dead_redoes :
    Redoes (fun q => do (← q.set_half_dead).set_lsn lsn) (halfDeadPage lsn) := by
  apply Redoes.of_checked (g := fun b => do (← b.set_half_dead).set_lsn lsn)
  · -- The type check of the section has no counterpart in redo.
    intro b b' hf
    unfold halfDeadPage at hf
    obtain ⟨b1, hb1, hf⟩ := bind_eq_ok.mp hf
    obtain ⟨_, _, hf⟩ := bind_eq_ok.mp hf
    exact bind_eq_ok.mpr ⟨b1, hb1, hf⟩
  apply Redoes.of_alike
  intro q b hs
  apply hs.set_half_dead_alike.bind
  intro q b hs
  exact hs.set_lsn_alike lsn

theorem root_redoes (root : UInt64) : Redoes (fun q => do
        let q ← redo_new_root (leBytes 8 root.toNat) q
        q.set_lsn lsn)
      (rootPage root lsn) := by
  have h0 : field (leBytes 8 root.toNat) 0 8 = .ok root.toNat := by simp
  apply Redoes.of_alike
  intro q b hs
  unfold redo_new_root rootPage
  simp only [h0, ok_bind, UInt64.ofNat_toNat]
  apply (show Alike Same (Meta.set_root q root) (Meta.set_root b root) from
    Alike.ok (hs.put (by decide) _)).bind
  intro q b hs
  exact hs.set_lsn_alike lsn

theorem redo_insert_downlink_eq {sep_key : Bytes} (right_child : UInt64)
    (hindex : index < 65536) (hsep : sep_key.length < 65536) (q : Page) :
    redo_insert_downlink canon (leBytes 2 index ++ leBytes 2 sep_key.length ++
        leBytes 8 right_child.toNat ++ sep_key) q = (do
      Internal.mutator q
      insert_key_and_right_child q index (canon sep_key) right_child) := by
  generalize hd : leBytes 2 index ++ leBytes 2 sep_key.length ++ leBytes 8 right_child.toNat ++
    sep_key = d
  have h0 : field d 0 2 = .ok index := by simp [← hd, hindex]
  have h2 : field d 2 2 = .ok sep_key.length := by simp [← hd, hsep]
  have h4 : field d 4 8 = .ok right_child.toNat := by simp [← hd]
  have h12 : part d 12 sep_key.length = .ok sep_key := by simp [← hd]
  unfold redo_insert_downlink
  simp only [h0, h2, h4, h12, ok_bind, UInt64.ofNat_toNat]

/-- What a downlink that went in implies, without the check that it fits. -/
theorem downlinkPage_ok {sep_key : Bytes} {right_child : UInt64} {b : Page}
    (h : downlinkPage canon index sep_key right_child lsn b = .ok b') :
    index < 65536 ∧ 12 + sep_key.length ≤ PAGE_SIZE ∧ (do
      Internal.mutator b
      let b ← insert_key_and_right_child b index (canon sep_key) right_child
      b.set_lsn lsn) = .ok b' := by
  unfold downlinkPage at h
  obtain ⟨_, hty, h⟩ := bind_eq_ok.mp h
  obtain ⟨fits, hfits, h⟩ := bind_eq_ok.mp h
  cases fits with
  | false => cases h
  | true =>
    rw [if_pos rfl] at h
    obtain ⟨b1, hb1, hlsn⟩ := bind_eq_ok.mp h
    refine ⟨index_of_insert hb1, length_of_can_fit hfits, ?_⟩
    exact bind_eq_ok.mpr ⟨_, hty, h⟩

theorem downlink_redoes (index : Nat) (sep_key : Bytes) (right_child : UInt64) : Redoes
      (fun q => do
        let q ← redo_insert_downlink canon (leBytes 2 index ++ leBytes 2 sep_key.length ++
          leBytes 8 right_child.toNat ++ sep_key) q
        q.set_lsn lsn)
      (downlinkPage canon index sep_key right_child lsn) := by
  intro q b b' hs hf
  obtain ⟨hindex, hsep, hf'⟩ := downlinkPage_ok hf
  have hlen : sep_key.length < 65536 := by
    unfold PAGE_SIZE at hsep
    omega
  simp only [redo_insert_downlink_eq right_child hindex hlen]
  exact mutator_redoes lsn (f := fun q =>
    insert_key_and_right_child q index (canon sep_key) right_child)
    (fun h => insert_key_and_right_child_alike Same.respects_internal h _ _ _) hs
    (by simpa only [Internal.mutator, bind_assoc] using hf')

/-! ## The blocks of an unlink -/

/-- A link written after the stamp, or before it. -/
theorem link_then_lsn {b : Page} {off v : Nat} (h1 : 24 ≤ off) (h2 : off + 8 ≤ PAGE_SIZE)
    (h : (do let b ← b.set_lsn lsn; b.write_u64 off v) = .ok b') :
    (do let b ← b.write_u64 off v; b.set_lsn lsn) = .ok b' := by
  have hwrite : ∀ b : Page, b.write_u64 off v = .ok (b.put off (leBytes 8 v)) := fun b => by
    unfold write_u64 write_bytes
    rw [if_pos (by rwa [length_leBytes])]
  have hlsn : ∀ b : Page, b.set_lsn lsn = .ok (b.put OFF_LSN (leBytes 8 lsn)) := fun b => rfl
  simp only [hwrite, hlsn, ok_bind] at h ⊢
  rw [← h, put_comm]
  simp only [length_leBytes]
  unfold OFF_LSN
  omega

/-- The stamp before a separator goes, or after. -/
theorem remove_then_lsn {b : Page} {keep : ChildSide}
    (h : (do let b ← b.set_lsn lsn; remove_key_at b index keep) = .ok b') :
    (do let b ← remove_key_at b index keep; b.set_lsn lsn) = .ok b' := by
  have hal := remove_key_at_alike (respects_restamped lsn)
    (a := b.put OFF_LSN (leBytes 8 lsn)) (b := b) rfl index keep
  change remove_key_at (b.put OFF_LSN (leBytes 8 lsn)) index keep = .ok b' at h
  cases hb : remove_key_at b index keep with
  | ok b1 =>
    rw [h, hb] at hal
    exact congrArg Except.ok (Eq.symm hal)
  | error e =>
    rw [h, hb] at hal
    exact hal.elim

theorem redo_unlink_left (p : UInt64) (q : Page) :
    redo_unlink_page ([UNLINK_ROLE_LEFT] ++ leBytes 8 p.toNat) q = (do
      Leaf.mutator q
      Leaf.set_rightlink q (link p.toNat)) := by
  simp [redo_unlink_page, ok_bind]

theorem redo_unlink_right (p : UInt64) (q : Page) :
    redo_unlink_page ([UNLINK_ROLE_RIGHT] ++ leBytes 8 p.toNat) q = (do
      Leaf.mutator q
      Leaf.set_prev_page q (link p.toNat)) := by
  have hrole : UNLINK_ROLE_RIGHT.toNat ≠ UNLINK_ROLE_LEFT.toNat := by decide
  simp [redo_unlink_page, ok_bind, hrole]

theorem redo_unlink_parent (hindex : index < 65536) (keep_right : Bool) (q : Page) :
    redo_unlink_page ([UNLINK_ROLE_PARENT] ++ leBytes 2 index ++
        [if keep_right then UNLINK_KEEP_RIGHT else UNLINK_KEEP_LEFT]) q = (do
      Internal.mutator q
      remove_key_at q index (if keep_right then .Right else .Left)) := by
  generalize hd : [UNLINK_ROLE_PARENT] ++ leBytes 2 index ++
    [if keep_right then UNLINK_KEEP_RIGHT else UNLINK_KEEP_LEFT] = d
  have h0 : field d 0 1 = .ok UNLINK_ROLE_PARENT.toNat := by simp [← hd]
  have h1 : field d 1 2 = .ok index := by simp [← hd, hindex]
  have h3 : field d 3 1 =
      .ok (if keep_right then UNLINK_KEEP_RIGHT else UNLINK_KEEP_LEFT).toNat := by simp [← hd]
  unfold redo_unlink_page
  simp only [h0, h1, h3, ok_bind]
  cases keep_right <;> rfl

/-- The redo of a link: `set` writes it at `off`, and the section stamps the page before. -/
theorem link_redoes {role : UInt8} {off : Nat} (h1 : 24 ≤ off) (h2 : off + 8 ≤ PAGE_SIZE)
    {set : Page → Option UInt64 → Except PageFault Page}
    (hset : ∀ b p, set b p = b.write_u64 off (p.getD 0).toNat)
    (halike : ∀ p {q b}, Same.OfType LEAF q b → Alike (Same.OfType LEAF) (set q p) (set b p))
    (hredo : ∀ (p : UInt64) q, redo_unlink_page ([role] ++ leBytes 8 p.toNat) q = (do
      Leaf.mutator q
      set q (link p.toNat))) (p : Option UInt64) :
    Redoes (fun q => do
        let q ← redo_unlink_page ([role] ++ leBytes 8 (p.getD 0).toNat) q
        q.set_lsn lsn)
      (fun b => do
        Leaf.mutator b
        let b ← b.set_lsn lsn
        set b p) := by
  intro q b b' hs hf
  obtain ⟨_, hty, hf⟩ := bind_eq_ok.mp hf
  simp only [hredo]
  refine mutator_redoes lsn (f := fun b => set b (link (p.getD 0).toNat)) (halike _) hs ?_
  change (Leaf.mutator b >>= _) >>= _ = _
  rw [bind_assoc, hty, ok_bind]
  simp only [hset, link_getD] at hf ⊢
  exact link_then_lsn h1 h2 hf

theorem left_redoes (right : Option UInt64) : Redoes (fun q => do
        let q ← redo_unlink_page ([UNLINK_ROLE_LEFT] ++ leBytes 8 (right.getD 0).toNat) q
        q.set_lsn lsn)
      (leftPage right lsn) :=
  link_redoes (by decide) (by decide) (fun _ _ => rfl)
    (fun _ _ _ h => Leaf.set_rightlink_alike Same.respects_leaf h _) redo_unlink_left right

theorem right_redoes (left : Option UInt64) : Redoes (fun q => do
        let q ← redo_unlink_page ([UNLINK_ROLE_RIGHT] ++ leBytes 8 (left.getD 0).toNat) q
        q.set_lsn lsn)
      (rightPage left lsn) :=
  link_redoes (by decide) (by decide) (fun _ _ => rfl)
    (fun _ _ _ h => Leaf.set_prev_page_alike Same.respects_leaf h _) redo_unlink_right left

theorem parent_redoes (index : Nat) (keep_right : Bool) : Redoes (fun q => do
        let q ← redo_unlink_page ([UNLINK_ROLE_PARENT] ++ leBytes 2 index ++
          [if keep_right then UNLINK_KEEP_RIGHT else UNLINK_KEEP_LEFT]) q
        q.set_lsn lsn)
      (parentPage index (if keep_right then .Right else .Left) lsn) := by
  intro q b b' hs hf
  unfold parentPage at hf
  obtain ⟨_, hty, hf⟩ := bind_eq_ok.mp hf
  have hf' := remove_then_lsn hf
  obtain ⟨b1, hb1, _⟩ := bind_eq_ok.mp hf'
  simp only [redo_unlink_parent (index_of_remove hb1)]
  refine mutator_redoes lsn
    (f := fun b => remove_key_at b index (if keep_right then .Right else .Left))
    (fun h => remove_key_at_alike Same.respects_internal h _ _) hs ?_
  change (Internal.mutator b >>= _) >>= _ = _
  rw [bind_assoc, hty, ok_bind]
  exact hf'

/-! ## The whole record -/

/-- A block as it is read back. -/
def readBack (block : Block) : Block := { block with data := nonEmpty block.data }

theorem redo_page_image (entry_type : WalRecordType) (i : Nat) (page : UInt64) (image : Page) :
    redo_page canon entry_type lsn i (readBack (.ofImage page image)) =
      fun _ => (Page.ofImage image.image).set_lsn lsn := rfl

theorem apply_insert (d : Bytes) : apply_data canon .Insert 0 (some d) = redo_insert d := rfl

theorem apply_set_xmax (d : Bytes) :
    apply_data canon .SetXMax 0 (some d) = redo_set_xmax d := rfl

theorem apply_insert_downlink (d : Bytes) :
    apply_data canon .InsertDownLink 0 (some d) = redo_insert_downlink canon d := rfl

theorem apply_unlink_page (i : Nat) (d : Bytes) :
    apply_data canon .UnlinkPage i (some d) = redo_unlink_page d := rfl

theorem apply_new_root (d : Bytes) :
    apply_data canon .NewRoot 1 (some d) = redo_new_root d := rfl

variable {entry_type : WalRecordType} {i : Nat}

/-- A block with a payload is redone by the arm of `apply_data` for its record and place. -/
theorem data_block {page : UInt64} {d : Bytes} {arm : Page → Except PageFault Page}
    (hd : d ≠ []) (harm : apply_data canon entry_type i (some d) = arm)
    (h : Redoes (fun q => arm q >>= fun q => q.set_lsn lsn) f) :
    Redoes (redo_page canon entry_type lsn i (readBack (.ofData page d))) f := by
  have hblock : readBack (.ofData page d) = .ofData page d := by
    simp [readBack, Block.ofData, nonEmpty, hd]
  rw [hblock]
  subst harm
  intro q b b' hs hf
  exact h hs hf

/-- A block with an image is redone whatever its record and its place. -/
theorem image_block {page : UInt64} {image : Page} :
    Redoes (redo_page canon entry_type lsn i (readBack (.ofImage page image)))
      (imagePage image lsn) := by
  rw [redo_page_image]
  exact image_redoes image

/-- Each block of the record redoes what the section did to its page. -/
theorem redone (canon : Bytes → Bytes) (lsn : Nat) (c : Change) {block : Block}
    (h : c.entry.blocks[i]? = some block) :
    ∃ f, (block.page_id, f) ∈ c.effects canon lsn ∧
      Redoes (redo_page canon c.entry.entry_type lsn i (readBack block)) f := by
  have hmem := mem_of_getElem? h
  cases c with
  | insert txn page slot key value rec_type =>
    cases i with
    | zero =>
      cases h
      refine ⟨_, mem_singleton_self _, ?_⟩
      exact data_block (by simp [leBytes]) (apply_insert _)
        (insert_redoes txn slot key value rec_type)
    | succ i => simp [entry, log_insert] at h
  | set_xmax txn page slot =>
    cases i with
    | zero =>
      cases h
      refine ⟨_, mem_singleton_self _, ?_⟩
      exact data_block (by simp [leBytes]) (apply_set_xmax _) (set_xmax_redoes txn slot)
    | succ i => simp [entry, log_set_xmax] at h
  | commit txn | abort txn | overflow_free first others => exact absurd hmem not_mem_nil
  | leaf_split left right old =>
    simp only [entry, log_leaf_split, cons_append, nil_append, mem_cons, mem_map] at hmem
    rcases hmem with rfl | rfl | ⟨o, ho, rfl⟩
    · exact ⟨imagePage left.2 lsn, by simp [effects, Block.ofImage], image_block⟩
    · exact ⟨imagePage right.2 lsn, by simp [effects, Block.ofImage], image_block⟩
    refine ⟨imagePage o.2 lsn, ?_, image_block⟩
    simp only [effects, mem_append, mem_map]
    exact .inr ⟨o, ho, rfl⟩
  | internal_split left right =>
    simp only [entry, log_internal_split, mem_cons, not_mem_nil, or_false] at hmem
    rcases hmem with rfl | rfl
    · exact ⟨imagePage left.2 lsn, by simp [effects, Block.ofImage], image_block⟩
    · exact ⟨imagePage right.2 lsn, by simp [effects, Block.ofImage], image_block⟩
  | insert_downlink parent index sep_key right_child left_child =>
    rcases i with _ | _ | i
    · cases h
      refine ⟨_, mem_cons_self, ?_⟩
      exact data_block (by simp [leBytes]) (apply_insert_downlink _)
        (downlink_redoes index sep_key right_child)
    · cases h
      exact ⟨_, mem_cons_of_mem _ mem_cons_self, clear_redoes⟩
    · simp [entry, log_insert_downlink] at h
  | new_root root left_child =>
    rcases i with _ | _ | _ | i
    · cases h
      exact ⟨_, mem_cons_self, image_block⟩
    · cases h
      refine ⟨_, mem_cons_of_mem _ mem_cons_self, ?_⟩
      exact data_block (by simp [leBytes]) (apply_new_root _) (root_redoes root.1)
    · cases h
      exact ⟨_, mem_cons_of_mem _ (mem_cons_of_mem _ mem_cons_self), clear_redoes⟩
    · simp [entry, log_new_root] at h
  | page_compact page image | overflow_write txn page image =>
    cases mem_singleton.mp hmem
    exact ⟨_, mem_singleton_self _, image_block⟩
  | mark_half_dead page =>
    cases i with
    | zero =>
      cases h
      exact ⟨_, mem_singleton_self _, half_dead_redoes⟩
    | succ i => simp [entry, log_mark_half_dead] at h
  | unlink_page deleted left right parent index keep =>
    simp only [entry, log_unlink_page, mem_append, mem_map, mem_singleton] at hmem
    rcases hmem with (⟨p, hp, rfl⟩ | ⟨p, hp, rfl⟩) | rfl
    · refine ⟨leftPage right lsn, ?_, ?_⟩
      · simp only [effects, mem_append, mem_map]
        exact .inl (.inr ⟨p, hp, rfl⟩)
      · exact data_block (by simp) (apply_unlink_page _ _) (left_redoes right)
    · refine ⟨rightPage left lsn, ?_, ?_⟩
      · simp only [effects, mem_append, mem_map]
        exact .inr ⟨p, hp, rfl⟩
      · exact data_block (by simp) (apply_unlink_page _ _) (right_redoes left)
    refine ⟨parentPage index (if keep then .Right else .Left) lsn, ?_, ?_⟩
    · exact mem_cons_self
    · exact data_block (by simp) (apply_unlink_page _ _) (parent_redoes index keep)

theorem pages_perm (canon : Bytes → Bytes) (lsn : Nat) (c : Change) :
    ((c.effects canon lsn).map Prod.fst).Perm (c.entry.blocks.map Block.page_id) := by
  cases c with
  | leaf_split left right old => cases old <;> exact List.Perm.refl _
  | unlink_page deleted left right parent index keep =>
    have hsection : (effects canon lsn (unlink_page deleted left right parent index keep)).map
        Prod.fst = [parent] ++ (left.toList ++ right.toList) := by
      simp [effects, Function.comp_def]
    have hrecord : (unlink_page deleted left right parent index keep).entry.blocks.map
        Block.page_id = (left.toList ++ right.toList) ++ [parent] := by
      simp [entry, log_unlink_page, Block.ofData, Function.comp_def]
    rw [hsection, hrecord]
    exact perm_append_comm
  | _ => exact List.Perm.refl _

/-! ## Records that can be read back -/

theorem image_fits (page : UInt64) (image : Page) : (Block.ofImage page image).Fits := by
  have hflag : BLK_HAS_FPI &&& 1 = 1 := by decide
  refine ⟨Iff.intro (fun _ => rfl) (fun _ => hflag), ?_, Nat.zero_lt_succ _⟩
  intro f hf
  rw [← Option.some.inj hf]
  exact length_slice _ _ _

theorem data_fits (page : UInt64) {d : Bytes} (hd : d.length < 65536) :
    (Block.ofData page d).Fits := by
  have hflag : ¬ BLK_HAS_DATA &&& 1 = 1 := by decide
  exact ⟨Iff.intro (fun h => absurd h hflag) nofun, by rintro f ⟨⟩, hd⟩

theorem bare_fits (page : UInt64) : (Block.bare page).Fits := by
  have hflag : ¬ (0 : UInt8) &&& 1 = 1 := by decide
  exact ⟨Iff.intro (fun h => absurd h hflag) nofun, by rintro f ⟨⟩, Nat.zero_lt_succ _⟩

theorem fits_of_blocks {txn : UInt64} {blocks : List Block} (hcount : blocks.length < 256)
    (h : ∀ b ∈ blocks, b.Fits) : (Entry.mk entry_type txn blocks none).Fits :=
  ⟨hcount, h, Nat.zero_lt_succ _⟩

/-- A free record lists at most as many pages as the length field of its main data counts. -/
def FreeFits : Change → Prop
  | overflow_free _ others => others.length < 8191
  | _ => True

instance (c : Change) : Decidable c.FreeFits := by
  cases c <;> unfold FreeFits <;> infer_instance

theorem length_ids (ids : List UInt64) :
    (ids.flatMap fun pid => leBytes 8 pid.toNat).length = 8 * ids.length := by
  induction ids with
  | nil => rfl
  | cons pid ids ih => simp [ih]; omega

/-- The record of a section that went through can be read back. -/
theorem entry_fits {c : Change} (hfree : c.FreeFits)
    (h : ∀ e ∈ c.effects canon lsn, ∃ b b', e.2 b = .ok b') : c.entry.Fits := by
  cases c with
  | insert txn page slot key value rec_type =>
    obtain ⟨b, b', hf⟩ := h _ (mem_singleton_self _)
    apply fits_of_blocks (by simp)
    rw [forall_mem_singleton]
    apply data_fits
    dsimp only [insertPage] at hf
    obtain ⟨_, _, hf⟩ := bind_eq_ok.mp hf
    obtain ⟨b1, hb1, _⟩ := bind_eq_ok.mp hf
    have := (Leaf.sizes_of_insert_raw hb1).2
    simp
    omega
  | set_xmax txn page slot =>
    apply fits_of_blocks (by simp)
    rw [forall_mem_singleton]
    exact data_fits _ (by simp)
  | commit txn | abort txn => exact fits_of_blocks (by simp) (by simp)
  | leaf_split left right old =>
    cases old with
    | none | some old =>
      apply fits_of_blocks (by simp)
      simp [image_fits]
  | internal_split left right =>
    apply fits_of_blocks (by simp)
    simp [image_fits]
  | insert_downlink parent index sep_key right_child left_child =>
    obtain ⟨b, b', hf⟩ := h _ mem_cons_self
    have hsep := (downlinkPage_ok hf).2.1
    unfold PAGE_SIZE at hsep
    apply fits_of_blocks (by simp)
    intro b hb
    simp only [mem_cons, not_mem_nil, or_false] at hb
    rcases hb with rfl | rfl
    · exact data_fits _ (by simp; omega)
    · exact bare_fits _
  | new_root root left_child =>
    apply fits_of_blocks (by simp)
    simp [image_fits, bare_fits, data_fits]
  | page_compact page image | overflow_write txn page image =>
    exact fits_of_blocks (by simp) (by simp [image_fits])
  | mark_half_dead page => exact fits_of_blocks (by simp) (by simp [bare_fits])
  | unlink_page deleted left right parent index keep =>
    refine ⟨?_, ?_, by simp [entry, log_unlink_page, dataLen]⟩
    · cases left <;> cases right <;> simp [entry, log_unlink_page]
    intro b hb
    simp only [entry, log_unlink_page, mem_append, mem_map, mem_singleton] at hb
    rcases hb with (⟨p, _, rfl⟩ | ⟨p, _, rfl⟩) | rfl
    · exact data_fits _ (by simp)
    · exact data_fits _ (by simp)
    · exact data_fits _ (by simp)
  | overflow_free first others =>
    refine ⟨by simp [entry, log_overflow_free], by simp [entry, log_overflow_free], ?_⟩
    have hfree' : others.length < 8191 := hfree
    simp only [entry, log_overflow_free, dataLen, Option.getD_some, length_ids, length_cons]
    omega

end Change

end FluxDB
