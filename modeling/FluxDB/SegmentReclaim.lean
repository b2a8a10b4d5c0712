-- Reclaiming segments. `reclaim_segments_below` lists the files of the log and removes them from
-- the front, each one after a look at the first LSN of the file behind it, while appends, flushes
-- and rotations go on. Only a front of the files goes, and nothing that redo needs goes with it.
import FluxDB.ReopenedLog

namespace FluxDB.SegmentReclaim

open Bytes WalThreads List Option Maps

/-! ## The calls -/

/-- Where a call of `reclaim_segments_below` is. `check` is the head of the loop, and so many files
as its index are removed by then. -/
inductive Stage
  | lock
  | list (active_index : Nat)
  | check (active_index : Nat) (segments : List Nat) (i : Nat)
  | remove (active_index : Nat) (segments : List Nat) (i : Nat)
  | sync_dir (deleted : Nat)
  | ok (deleted : Nat)
  | err
  deriving DecidableEq, Repr

structure Reclaim where
  redo_point : Nat
  stage : Stage
  deriving DecidableEq, Repr

/-- The log, the files that were removed, and the calls. A rotation that fails to create its file
has counted `segment_index` up already; `unopened` says so. -/
structure Dir where
  wal : World
  unopened : Bool
  gone : List Nat
  calls : List Reclaim
  deriving DecidableEq, Repr

/-- The log takes a step, a thread calls `reclaim_segments_below`, a call takes its next step, or
the file operation of that step fails. -/
inductive Event
  | wal (e : WalThreads.Event)
  | reclaim_segments_below (redo_point : Nat)
  | run (j : Nat)
  | fault (j : Nat)
  deriving DecidableEq, Repr

/-- The LSN at the front of a file, if that much of it is there. -/
def head (bs : Bytes) : Option Nat :=
  if 8 ≤ bs.length then some (leNat (bs.take 8)) else none

namespace Dir

variable (w : Dir)

def segment_index : Nat := w.wal.writer.closed.length + if w.unopened then 1 else 0

/-- The numbers of the files, counted from the oldest one that the open has found. -/
def list_segments : List Nat :=
  (List.range w.wal.writer.segments.length).filter fun i => decide (i ∉ w.gone)

def first_record_lsn (i : Nat) : Option Nat :=
  if i ∈ w.gone then none else w.wal.writer.segments[i]?.bind head

def setStage (j redo_point : Nat) (stage : Stage) : Dir :=
  { w with calls := w.calls.set j ⟨redo_point, stage⟩ }

/-- The end of the loop. -/
def finish (deleted : Nat) : Stage := if 0 < deleted then .sync_dir deleted else .ok 0

/-- What the loop does with the file `segments[i]`. -/
def check (redo_point active_index : Nat) (segments : List Nat) (i : Nat) : Stage :=
  match segments[i]?, segments[i + 1]? with
  | some index, some next =>
    if index ≥ active_index then finish i
    else
      match w.first_record_lsn next with
      | some next_first_lsn =>
        if next_first_lsn ≤ redo_point then .remove active_index segments i else finish i
      | none => finish i
  | _, _ => finish i

/-- The next step of a call. -/
def runReclaim (j redo_point : Nat) : Stage → Option Dir
  | .lock =>
    if w.wal.writerFree then some (w.setStage j redo_point (.list w.segment_index)) else none
  | .list active_index => some (w.setStage j redo_point (.check active_index w.list_segments 0))
  | .check active_index segments i =>
    some (w.setStage j redo_point (w.check redo_point active_index segments i))
  | .remove active_index segments i =>
    segments[i]?.map fun index =>
      if index ∈ w.gone then w.setStage j redo_point .err
      else { w with gone := w.gone ++ [index] }.setStage j redo_point
        (.check active_index segments (i + 1))
  | .sync_dir deleted => some (w.setStage j redo_point (.ok deleted))
  | .ok _ => none
  | .err => none

/-- The file operation of the step fails. A head that cannot be read ends the loop. -/
def failReclaim (j redo_point : Nat) : Stage → Option Dir
  | .list _ | .remove _ _ _ | .sync_dir _ => some (w.setStage j redo_point .err)
  | .check _ _ i => some (w.setStage j redo_point (finish i))
  | _ => none

/-- The log as an open finds it, with no file removed yet. -/
def opened (buffer_capacity segment_size : Nat) (segments : List Bytes) (last_lsn : Nat) :
    Dir where
  wal := .opened buffer_capacity segment_size segments last_lsn
  unopened := false
  gone := []
  calls := []

/-- The files that are left after a crash: those that were not removed, the last one with as many
bytes as have reached the disk. -/
def left (kept : Nat) : List Bytes :=
  ((w.wal.writer.survivors kept).zipIdx.filter fun f => decide (f.2 ∉ w.gone)).map Prod.fst

end Dir

def isUnopened : WalThreads.Event → Bool
  | .write_fault _ .rotate_open => true
  | _ => false

def step (w : Dir) : Event → Option Dir
  | .wal e => (WalThreads.step w.wal e).map fun wal =>
      { w with wal, unopened := w.unopened || isUnopened e }
  | .reclaim_segments_below redo_point =>
    some { w with calls := w.calls ++ [⟨redo_point, .lock⟩] }
  | .run j => w.calls[j]?.bind fun c => w.runReclaim j c.redo_point c.stage
  | .fault j => w.calls[j]?.bind fun c => w.failReclaim j c.redo_point c.stage

/-! ## Files only grow -/

/-- Every file stays the front of itself. -/
structure Grown (v v' : SegmentWriter) : Prop where
  closed : v.closed.length ≤ v'.closed.length
  files : ∀ (i : Nat) bs, v.segments[i]? = some bs → ∃ bs', v'.segments[i]? = some bs' ∧ bs <+: bs'

theorem Grown.refl (v : SegmentWriter) : Grown v v :=
  ⟨le_rfl, fun _ bs h => ⟨bs, h, List.prefix_rfl⟩⟩

variable {v v' : SegmentWriter} {i lsn redo_point : Nat}

theorem Grown.trans {v'' : SegmentWriter} (h : Grown v v') (h' : Grown v' v'') : Grown v v'' := by
  refine ⟨h.closed.trans h'.closed, fun i bs hi => ?_⟩
  obtain ⟨bs', hi', hle⟩ := h.files i bs hi
  obtain ⟨bs'', hi'', hle'⟩ := h'.files i bs' hi'
  exact ⟨bs'', hi'', hle.trans hle'⟩

theorem grown_append (v : SegmentWriter) (bs : Bytes) :
    Grown v { v with file := v.file ++ bs } := by
  refine ⟨le_rfl, fun i cs hi => ?_⟩
  unfold SegmentWriter.segments at hi ⊢
  rw [getElem?_append] at hi ⊢
  split at hi
  · next hlt => exact ⟨cs, by rw [if_pos hlt]; exact hi, List.prefix_rfl⟩
  rename_i hlt
  obtain ⟨hi', rfl⟩ := List.getElem?_eq_some_iff.mp hi
  obtain hz : i - v.closed.length = 0 := by simpa using hi'
  refine ⟨v.file ++ bs, ?_, ?_⟩
  · rw [if_neg hlt, hz]
    rfl
  · simp [hz]

theorem grown_rotate (v : SegmentWriter) : Grown v v.rotate := by
  refine ⟨?_, fun i bs hi => ⟨bs, ?_, List.prefix_rfl⟩⟩
  · simp [SegmentWriter.rotate]
  have hlt := lt_of_getElem? hi
  change (v.segments ++ [[]])[i]? = some bs
  rw [getElem?_append_left hlt]
  exact hi

theorem grown_ready (v : SegmentWriter) (record : Bytes) : Grown v (v.ready record) := by
  unfold SegmentWriter.ready
  split
  · exact grown_rotate v
  · exact .refl v

theorem grown_sync (v : SegmentWriter) : Grown v v.sync :=
  ⟨le_rfl, fun _ bs h => ⟨bs, h, List.prefix_rfl⟩⟩

theorem grown_write_record {record : Bytes} {fault : Option WriteFault}
    {result : Except FlushError Unit} (h : v.write_record lsn record fault = some (result, v')) :
    Grown v v' := by
  unfold SegmentWriter.write_record at h
  split at h
  · split at h
    · cases h
      exact .refl v
    cases h
    exact (grown_ready v record).trans (grown_append _ _)
  · split at h
    · cases h
      exact (grown_ready v record).trans (grown_append _ _)
    · cases h
  · split at h
    · cases h
      exact .refl v
    · cases h
  · split at h
    · cases h
      exact grown_sync v
    · cases h
  split at h
  · cases h
    exact grown_rotate v
  · cases h

theorem grown_of_touches (h : Touches v v') : Grown v v' := by
  cases h with
  | kept => exact .refl _
  | sync => exact grown_sync _
  | write hwrite => exact grown_write_record hwrite

theorem grown_step {w w' : World} {e : WalThreads.Event} (h : WalThreads.step w e = some w') :
    Grown w.writer w'.writer := by
  rcases step_cases h with ⟨entry, -, rfl⟩ | ⟨lsn, -, rfl⟩ | ⟨i, stage, -, hrun⟩ |
    ⟨i, target, stage, -, -, htouch, -⟩
  · exact .refl _
  · exact .refl _
  · cases appends_of_run hrun <;> exact .refl _
  · exact grown_of_touches htouch

/-- The LSN at the front of a file stays there. -/
theorem Grown.head (h : Grown v v') (hi : v.segments[i]?.bind head = some lsn) :
    v'.segments[i]?.bind head = some lsn := by
  obtain ⟨bs, hbs, hlsn⟩ := bind_eq_some_iff.mp hi
  obtain ⟨bs', hbs', rest, rfl⟩ := h.files i bs hbs
  refine bind_eq_some_iff.mpr ⟨_, hbs', ?_⟩
  unfold SegmentReclaim.head at hlsn ⊢
  split at hlsn
  · next hlen =>
    rw [if_pos (by rw [length_append]; omega), take_append_of_le_length hlen]
    exact hlsn
  · cases hlsn

theorem Grown.segments (h : Grown v v') : v.segments.length ≤ v'.segments.length := by
  have hclosed := h.closed
  unfold SegmentWriter.segments
  rw [length_append, length_append]
  exact Nat.add_le_add_right hclosed 1

/-! ## Only a front of the files goes -/

/-- The call has seen the files from `first` on, and those in front of its place are removed. Where
it is about to remove one, it has read a small LSN at the front of the file behind. -/
def Reclaim.Sound (w : Dir) (c : Reclaim) : Prop :=
  match c.stage with
  | .check _ segments i => ∃ first n, segments = List.range' first n ∧
      first + n ≤ w.wal.writer.segments.length ∧ first + i ≤ w.gone.length
  | .remove _ segments i => ∃ first n, segments = List.range' first n ∧
      first + n ≤ w.wal.writer.segments.length ∧ first + i ≤ w.gone.length ∧ i + 1 < n ∧
      ∃ lsn ≤ c.redo_point, w.wal.writer.segments[first + i + 1]?.bind head = some lsn
  | _ => True

/-- The files that were removed are the oldest ones, without the last one. Behind each of them
there is a file that starts at or below a redo point. -/
structure Sound (o : SegmentWriter) (base : Nat) (w : Dir) : Prop where
  wal : Good o base w.wal
  front : w.gone = List.range w.gone.length
  active : w.gone.length ≤ w.wal.writer.closed.length
  below : ∀ i < w.gone.length, ∃ lsn, w.wal.writer.segments[i + 1]?.bind head = some lsn ∧
    ∃ r ∈ w.calls.map Reclaim.redo_point, lsn ≤ r
  calls : ∀ c ∈ w.calls, c.Sound w

theorem filter_range (g n : Nat) (h : g ≤ n) :
    (List.range n).filter (fun i => decide (i ∉ List.range g)) = List.range' g (n - g) := by
  obtain ⟨m, rfl⟩ := Nat.exists_eq_add_of_le h
  rw [Nat.add_sub_cancel_left, range_add, filter_append, filter_eq_nil_iff.mpr,
    nil_append, filter_eq_self.mpr, ← range'_eq_map_range]
  · intro i hi
    obtain ⟨k, -, rfl⟩ := mem_map.mp hi
    simp
  intro i hi
  simpa using hi

section Step

variable {o : SegmentWriter} {base : Nat} {w w' : Dir} {j : Nat} {c : Reclaim}

/-- A call that keeps its place is as sound after more files and more records. -/
theorem Reclaim.Sound.mono (h : c.Sound w) (hgrown : Grown w.wal.writer w'.wal.writer)
    (hgone : w.gone.length ≤ w'.gone.length) : c.Sound w' := by
  have hle := hgrown.segments
  obtain ⟨redo_point, stage⟩ := c
  cases stage with
  | check active_index segments i =>
    obtain ⟨first, n, hsegments, hn, hi⟩ := h
    exact ⟨first, n, hsegments, hn.trans hle, hi.trans hgone⟩
  | remove active_index segments i =>
    obtain ⟨first, n, hsegments, hn, hi, hlt, lsn, hlsn, hhead⟩ := h
    exact ⟨first, n, hsegments, hn.trans hle, hi.trans hgone, hlt, lsn, hlsn, hgrown.head hhead⟩
  | _ => trivial

theorem map_redo_point_set (hj : w.calls[j]? = some c) (stage : Stage) :
    (w.calls.set j ⟨c.redo_point, stage⟩).map Reclaim.redo_point =
      w.calls.map Reclaim.redo_point := by
  apply ext_getElem?
  intro k
  rw [getElem?_map, getElem?_map, getElem?_set_eq_ite hj]
  split
  · next hk =>
    rw [hk, hj]
    rfl
  · rfl

/-- A call goes on without removing anything. -/
theorem Sound.setStage (h : Sound o base w) (hj : w.calls[j]? = some c) {stage : Stage}
    (hstage : (Reclaim.mk c.redo_point stage).Sound w) :
    Sound o base (w.setStage j c.redo_point stage) := by
  refine ⟨h.wal, h.front, h.active, ?_, ?_⟩
  · intro i hi
    obtain ⟨lsn, hlsn, hr⟩ := h.below i hi
    refine ⟨lsn, hlsn, ?_⟩
    change ∃ r ∈ (w.calls.set j ⟨c.redo_point, stage⟩).map Reclaim.redo_point, lsn ≤ r
    rw [map_redo_point_set hj]
    exact hr
  exact forall_mem_set (fun d hd => (h.calls d hd).mono (.refl _) le_rfl)
    (hstage.mono (.refl _) le_rfl)

theorem sound_finish (redo_point deleted : Nat) :
    (Reclaim.mk redo_point (Dir.finish deleted)).Sound w := by
  unfold Dir.finish
  split
  · trivial
  · trivial

/-- The loop goes on to remove a file only after it has read the LSN behind it. -/
theorem sound_check {active_index : Nat} {segments : List Nat}
    (h : (Reclaim.mk redo_point (.check active_index segments i)).Sound w) :
    (Reclaim.mk redo_point (w.check redo_point active_index segments i)).Sound w := by
  obtain ⟨first, n, rfl, hn, hi⟩ := h
  unfold Dir.check
  split
  swap
  · exact sound_finish _ _
  rename_i index next hindex hnext
  obtain ⟨hlt, hval⟩ := List.getElem?_eq_some_iff.mp hnext
  rw [length_range'] at hlt
  rw [getElem_range'] at hval
  split
  · exact sound_finish _ _
  split
  swap
  · exact sound_finish _ _
  rename_i lsn hlsn
  split
  · next hle =>
    refine ⟨first, n, rfl, hn, hi, hlt, lsn, hle, ?_⟩
    unfold Dir.first_record_lsn at hlsn
    split at hlsn
    · cases hlsn
    rw [← hlsn, ← hval]
    congr 2
    omega
  · exact sound_finish _ _

/-- The file that goes is the oldest one that is left. -/
theorem sound_remove {active_index : Nat} {segments : List Nat} {index : Nat} (h : Sound o base w)
    (hj : w.calls[j]? = some ⟨redo_point, .remove active_index segments i⟩)
    (hindex : segments[i]? = some index) (hleft : index ∉ w.gone) :
    Sound o base ({ w with gone := w.gone ++ [index] }.setStage j redo_point
      (.check active_index segments (i + 1))) := by
  obtain ⟨first, n, rfl, hn, hi, hlt, lsn, hlsn, hhead⟩ := h.calls _ (mem_of_getElem? hj)
  obtain ⟨hlt', hval⟩ := List.getElem?_eq_some_iff.mp hindex
  rw [getElem_range', Nat.one_mul] at hval
  have hge : w.gone.length ≤ index := by
    rw [h.front, mem_range] at hleft
    exact Nat.not_lt.mp hleft
  obtain rfl : index = w.gone.length := by omega
  have hsegments : w.wal.writer.segments.length = w.wal.writer.closed.length + 1 := by
    unfold SegmentWriter.segments
    rw [length_append, length_singleton]
  have hlen : (w.gone ++ [w.gone.length]).length = w.gone.length + 1 := by
    rw [length_append, length_singleton]
  refine ⟨h.wal, ?_, ?_, ?_, ?_⟩
  · change w.gone ++ [w.gone.length] = List.range (w.gone ++ [w.gone.length]).length
    rw [hlen, range_succ, ← h.front]
  · change (w.gone ++ [w.gone.length]).length ≤ w.wal.writer.closed.length
    omega
  · intro k hk
    change k < (w.gone ++ [w.gone.length]).length at hk
    change ∃ lsn, w.wal.writer.segments[k + 1]?.bind head = some lsn ∧
      ∃ r ∈ (w.calls.set j ⟨redo_point, _⟩).map Reclaim.redo_point, lsn ≤ r
    rw [map_redo_point_set hj]
    by_cases hold : k < w.gone.length
    · exact h.below k hold
    obtain rfl : k = first + i := by omega
    exact ⟨lsn, hhead, redo_point, mem_map_of_mem (mem_of_getElem? hj), hlsn⟩
  intro d hd
  have hmore : w.gone.length ≤ (w.gone ++ [w.gone.length]).length := by omega
  rcases mem_or_eq_of_mem_set hd with hd | rfl
  · exact (h.calls d hd).mono (.refl _) hmore
  refine ⟨first, n, rfl, hn, ?_⟩
  change first + (i + 1) ≤ (w.gone ++ [w.gone.length]).length
  omega

theorem sound_list (h : Sound o base w) (redo_point active_index : Nat) :
    (Reclaim.mk redo_point (.check active_index w.list_segments 0)).Sound w := by
  have hle : w.gone.length ≤ w.wal.writer.segments.length := by
    have := h.active
    unfold SegmentWriter.segments
    rw [length_append]
    omega
  refine ⟨w.gone.length, w.wal.writer.segments.length - w.gone.length, ?_, by omega, le_rfl⟩
  unfold Dir.list_segments
  rw [h.front, length_range]
  exact filter_range _ _ hle

theorem sound_runReclaim (h : Sound o base w) (hj : w.calls[j]? = some c)
    (hstep : w.runReclaim j c.redo_point c.stage = some w') : Sound o base w' := by
  have hc := h.calls c (mem_of_getElem? hj)
  obtain ⟨redo_point, stage⟩ := c
  cases stage with
  | lock =>
    obtain ⟨-, ⟨⟩⟩ := ite_none_right_eq_some.mp hstep
    exact h.setStage hj trivial
  | list active_index =>
    cases hstep
    exact h.setStage hj (sound_list h _ _)
  | check active_index segments i =>
    cases hstep
    exact h.setStage hj (sound_check hc)
  | remove active_index segments i =>
    obtain ⟨index, hindex, rfl⟩ := map_eq_some_iff.mp hstep
    split
    · exact h.setStage hj trivial
    · next hleft => exact sound_remove h hj hindex hleft
  | sync_dir deleted =>
    cases hstep
    exact h.setStage hj trivial
  | ok deleted => cases hstep
  | err => cases hstep

theorem sound_failReclaim (h : Sound o base w) (hj : w.calls[j]? = some c)
    (hstep : w.failReclaim j c.redo_point c.stage = some w') : Sound o base w' := by
  obtain ⟨redo_point, stage⟩ := c
  cases stage with
  | check active_index segments i =>
    cases hstep
    exact h.setStage hj (sound_finish _ _)
  | list _ | remove _ _ _ | sync_dir _ =>
    cases hstep
    exact h.setStage hj trivial
  | lock | ok _ | err => cases hstep

theorem sound_step (w : Dir) (e : Event) (w' : Dir) (h : Sound o base w)
    (hstep : step w e = some w') : Sound o base w' := by
  cases e with
  | wal e =>
    obtain ⟨wal, hwal, rfl⟩ := map_eq_some_iff.mp hstep
    have hgrown := grown_step hwal
    refine ⟨good_step h.wal hwal, h.front, h.active.trans hgrown.closed, fun i hi => ?_,
      fun c hc => (h.calls c hc).mono hgrown le_rfl⟩
    obtain ⟨lsn, hlsn, hr⟩ := h.below i hi
    exact ⟨lsn, hgrown.head hlsn, hr⟩
  | reclaim_segments_below redo_point =>
    cases hstep
    refine ⟨h.wal, h.front, h.active, fun i hi => ?_, fun c hc => ?_⟩
    · obtain ⟨lsn, hlsn, r, hr, hle⟩ := h.below i hi
      refine ⟨lsn, hlsn, r, ?_, hle⟩
      rw [map_append]
      exact mem_append_left _ hr
    refine forall_mem_concat (fun c hc => (h.calls c hc).mono (.refl _) le_rfl) ?_ c hc
    trivial
  | run j =>
    obtain ⟨c, hj, hrun⟩ := bind_eq_some_iff.mp hstep
    exact sound_runReclaim h hj hrun
  | fault j =>
    obtain ⟨c, hj, hrun⟩ := bind_eq_some_iff.mp hstep
    exact sound_failReclaim h hj hrun

end Step

/-! ## What is left holds what redo needs -/

/-- Two fronts of the log with as many bytes are the same. -/
theorem eq_of_bytesOf {a b c d : List Logged} (h : a ++ c = b ++ d) (hlen : bytesOf a = bytesOf b) :
    a = b := by
  induction a generalizing b with
  | nil =>
    cases b with
    | nil => rfl
    | cons r b =>
      rw [bytesOf_cons] at hlen
      exact absurd (append_eq_nil_iff.mp hlen.symm).1 r.bytes_ne_nil
  | cons r a ih =>
    cases b with
    | nil =>
      rw [bytesOf_cons] at hlen
      exact absurd (append_eq_nil_iff.mp hlen).1 r.bytes_ne_nil
    | cons r' b =>
      obtain ⟨rfl, htail⟩ := List.cons.inj h
      rw [bytesOf_cons, bytesOf_cons] at hlen
      rw [ih htail (append_cancel_left hlen)]

/-- The closed segments tell which records are in which of them. -/
theorem groups_unique {gs gs' : List (List Logged)} {a b : List Logged}
    (h : gs.flatten ++ a = gs'.flatten ++ b) (hbytes : gs.map bytesOf = gs'.map bytesOf) :
    gs = gs' := by
  induction gs generalizing gs' with
  | nil =>
    cases gs' with
    | nil => rfl
    | cons g gs' => cases hbytes
  | cons g gs ih =>
    cases gs' with
    | nil => cases hbytes
    | cons g' gs' =>
      obtain ⟨hg, hgs⟩ := List.cons.inj hbytes
      rw [flatten_cons, flatten_cons, append_assoc, append_assoc] at h
      obtain rfl := eq_of_bytesOf h hg
      rw [ih (append_cancel_left h) hgs]

/-- The LSN at the front of a file is that of its first record, even if that one is cut short. -/
theorem lsn_of_head {rs : List Logged} {bs : Bytes} (hbs : bs <+: bytesOf rs)
    (hhead : head bs = some lsn) (hlsn : ∀ r ∈ rs, r.lsn < 2 ^ 64) :
    ∃ r rs', rs = r :: rs' ∧ lsn = r.lsn := by
  unfold head at hhead
  split at hhead
  swap
  · cases hhead
  rename_i hlen
  cases hhead
  cases rs with
  | nil =>
    rw [bytesOf_nil, List.prefix_nil] at hbs
    rw [hbs] at hlen
    cases hlen
  | cons r rs =>
    refine ⟨r, rs, rfl, ?_⟩
    obtain ⟨rest, hrest⟩ := hbs
    have hfront : bs.take 8 = leBytes 8 r.lsn := by
      have htake : (bs ++ rest).take 8 = bs.take 8 := take_append_of_le_length hlen
      rw [← htake, hrest]
      unfold bytesOf Logged.bytes Entry.bytes Entry.body
      simp only [flatMap_cons, append_assoc]
      rw [take_append_of_le_length (length_leBytes 8 _).ge,
        take_of_length_le (length_leBytes 8 _).le]
    rw [hfront]
    exact leNat_leBytes_of_lt (hlsn r mem_cons_self)

theorem left_eq_drop {w : Dir} (h : w.gone = List.range w.gone.length) (kept : Nat) :
    w.left kept = (w.wal.writer.survivors kept).drop w.gone.length := by
  have hdrop : ∀ (g : Nat) (fs : List Bytes) (k : Nat),
      ((fs.zipIdx k).filter fun f => decide (f.2 ∉ List.range g)).map Prod.fst =
        fs.drop (g - k) := by
    intro g fs
    induction fs with
    | nil => simp
    | cons f fs ih =>
      intro k
      rw [zipIdx_cons, filter_cons]
      by_cases hk : k < g
      · have hg : g - k = g - (k + 1) + 1 := by omega
        rw [if_neg (by simpa using hk), ih, hg, drop_succ_cons]
      have hg : g - k = 0 := by omega
      have hg' : g - (k + 1) = 0 := by omega
      rw [if_pos (by simpa using hk), map_cons, ih, hg, hg', drop_zero, drop_zero]
  unfold Dir.left
  rw [h, length_range]
  exact hdrop _ _ 0

section Left

variable {o : SegmentWriter} {base : Nat} {w : Dir} {found : List Logged}

theorem ordered (h : Good o base w.wal) (hfound : found.Pairwise fun r r' => r.lsn < r'.lsn)
    (hbase : ∀ r ∈ found, r.lsn ≤ base) :
    (found ++ w.wal.log).Pairwise fun r r' => r.lsn < r'.lsn := by
  refine pairwise_append.mpr ⟨hfound, ?_, ?_⟩
  · rw [pairwise_iff_getElem]
    intro i k hi hk hlt
    rw [h.numbered i _ (getElem?_eq_getElem hi), h.numbered k _ (getElem?_eq_getElem hk)]
    omega
  intro r hr r' hr'
  obtain ⟨k, hk⟩ := mem_iff_getElem?.mp hr'
  have := h.numbered k r' hk
  have := hbase r hr
  omega

theorem lsn_lt (h : Good o base w.wal) (hbase : ∀ r ∈ found, r.lsn ≤ base)
    (hlsn : w.wal.next_lsn ≤ 2 ^ 64) : ∀ r ∈ found ++ w.wal.log, r.lsn < 2 ^ 64 := by
  have hnext := h.next
  intro r hr
  rcases mem_append.mp hr with hr | hr
  · have := hbase r hr
    omega
  obtain ⟨k, hk⟩ := mem_iff_getElem?.mp hr
  have := h.numbered k r hk
  have := lt_of_getElem? hk
  omega

/-- The records of the removed files have LSNs below one of the redo points. -/
theorem removed_below (h : Sound o base w) {rs : List Logged}
    (hlsns : rs.Pairwise fun r r' => r.lsn < r'.lsn) (hlsn : ∀ r ∈ rs, r.lsn < 2 ^ 64)
    {groups : List (List Logged)} {last next rest : List Logged} {piece : Bytes}
    (hrs : groups.flatten ++ last ++ next ++ rest = rs)
    (hclosed : w.wal.writer.closed = groups.map bytesOf)
    (hfile : w.wal.writer.file = bytesOf last ++ piece) (hpiece : piece <+: bytesOf next)
    (hredo : ∀ c ∈ w.calls, c.redo_point ≤ redo_point) :
    ∀ r ∈ (groups.take w.gone.length).flatten, r.lsn < redo_point := by
  intro r hr
  obtain ⟨g, hg⟩ : ∃ g, w.gone.length = g + 1 := by
    cases hlen : w.gone.length with
    | zero =>
      rw [hlen] at hr
      cases hr
    | succ g => exact ⟨g, rfl⟩
  obtain ⟨lsn, hhead, redo, hmem, hle⟩ := h.below g (by omega)
  obtain ⟨c, hc, rfl⟩ := mem_map.mp hmem
  have hactive := h.active
  rw [hclosed, length_map] at hactive
  -- the file behind the removed ones is a front of the records that come next
  have hbehind : ∃ bs, w.wal.writer.segments[g + 1]? = some bs ∧
      bs <+: bytesOf ((groups.drop (g + 1)).flatten ++ (last ++ next)) := by
    unfold SegmentWriter.segments
    rw [hclosed, hfile]
    cases hdrop : groups.drop (g + 1) with
    | nil =>
      have hlen := drop_eq_nil_iff.mp hdrop
      refine ⟨bytesOf last ++ piece, ?_, ?_⟩
      · rw [getElem?_append_right (by rw [length_map]; omega), length_map,
          Nat.sub_eq_zero_of_le (by omega)]
        rfl
      rw [flatten_nil, nil_append, bytesOf_append]
      exact (List.prefix_append_right_inj _).mpr hpiece
    | cons group groups' =>
      have hget : groups[g + 1]? = some group := by
        rw [← Nat.add_zero (g + 1), ← getElem?_drop, hdrop]
        rfl
      refine ⟨bytesOf group, ?_, ?_⟩
      · rw [getElem?_append_left, getElem?_map, hget]
        · rfl
        rw [length_map]
        exact lt_of_getElem? hget
      rw [flatten_cons, append_assoc, bytesOf_append]
      exact List.prefix_append _ _
  obtain ⟨bs, hbs, hpre⟩ := hbehind
  rw [hbs, bind_some] at hhead
  have hsplit : (groups.take (g + 1)).flatten ++
      ((groups.drop (g + 1)).flatten ++ (last ++ next) ++ rest) = rs := by
    rw [← hrs]
    nth_rewrite 3 [← take_append_drop (g + 1) groups]
    simp only [flatten_append, append_assoc]
  have hsmall : ∀ r ∈ (groups.drop (g + 1)).flatten ++ (last ++ next), r.lsn < 2 ^ 64 := by
    intro r hr
    apply hlsn
    rw [← hsplit]
    exact mem_append_right _ (mem_append_left _ hr)
  obtain ⟨r', rs', hcons, rfl⟩ := lsn_of_head hpre hhead hsmall
  rw [hcons] at hsplit
  rw [← hsplit] at hlsns
  rw [hg] at hr
  have hlt := (pairwise_append.mp hlsns).2.2 r hr r' (by simp)
  have := hredo c hc
  omega

end Left

theorem sound_opened (buffer_capacity segment_size : Nat) (segments : List Bytes)
    (last_lsn : Nat) : Sound (.open segment_size segments) last_lsn
      (.opened buffer_capacity segment_size segments last_lsn) where
  wal := good_opened buffer_capacity segment_size last_lsn segments
  front := rfl
  active := Nat.zero_le _
  below := fun _ h => absurd h (Nat.not_lt_zero _)
  calls := fun _ h => absurd h not_mem_nil

/-- Whatever the log and the calls have done, a crash leaves all its files but the first `g`, among
them the active one. The synced records that redo needs are in those. -/
theorem reclaim_keeps_what_redo_needs {buffer_capacity segment_size base : Nat}
    {segments : List Bytes} {found : List Logged}
    (hwhole : Whole found (.open segment_size segments))
    (hfound : found.Pairwise fun r r' => r.lsn < r'.lsn) (hbase : ∀ r ∈ found, r.lsn ≤ base)
    {es : List Event} {w : Dir}
    (hrun : Runs.run step (.opened buffer_capacity segment_size segments base) es = some w)
    (hlsn : w.wal.next_lsn ≤ 2 ^ 64) {redo_point : Nat}
    (hredo : ∀ c ∈ w.calls, c.redo_point ≤ redo_point) :
    ∃ (g d : Nat) (groups : List (List Logged)) (last : List Logged),
      g ≤ w.wal.writer.closed.length ∧
      (∀ kept, w.left kept = (w.wal.writer.survivors kept).drop g) ∧
      w.wal.writer.closed = groups.map bytesOf ∧
      w.wal.writer.file.take w.wal.writer.synced = bytesOf last ∧
      w.wal.flushed_lsn ≤ base + d ∧ groups.flatten ++ last = found ++ w.wal.log.take d ∧
      ∀ r ∈ found ++ w.wal.log.take d, redo_point ≤ r.lsn →
        r ∈ (groups.drop g).flatten ++ last := by
  have h := Runs.inv_run sound_step (sound_opened buffer_capacity segment_size segments base) hrun
  obtain ⟨d, hd, -, -, hsynced⟩ := h.wal.synced
  obtain ⟨groups, last, hrs, hclosed, hfile⟩ := hsynced.holds hwhole
  rw [List.append_nil] at hfile
  refine ⟨w.gone.length, d, groups, last, h.active, left_eq_drop h.front, hclosed, hfile, hd, hrs,
    ?_⟩
  intro r hr hge
  -- all the files have been written from these groups and maybe more of the last one
  obtain ⟨n, piece, hn, hpiece, hwritten⟩ := h.wal.traced
  obtain ⟨groups', last', hrs', hclosed', hfile'⟩ := hwritten.holds hwhole
  have hall : groups'.flatten ++ last' ++ (w.wal.log.drop n).take 1 ++ (w.wal.log.drop n).drop 1 =
      found ++ w.wal.log := by
    rw [hrs', List.append_assoc, List.take_append_drop, List.append_assoc, List.take_append_drop]
  have hsame : groups = groups' := by
    refine groups_unique (a := last ++ w.wal.log.drop d) (b := last' ++ w.wal.log.drop n) ?_
      (hclosed.symm.trans hclosed')
    rw [← List.append_assoc, ← List.append_assoc, hrs, hrs', List.append_assoc, List.append_assoc,
      List.take_append_drop, List.take_append_drop]
  subst hsame
  have hbelow := removed_below h (ordered h.wal hfound hbase) (lsn_lt h.wal hbase hlsn) hall
    hclosed' hfile' hpiece hredo
  rw [← hrs] at hr
  rcases List.mem_append.mp hr with hr | hr
  · rw [← List.take_append_drop w.gone.length groups, List.flatten_append] at hr
    rcases List.mem_append.mp hr with hr | hr
    · have := hbelow r hr
      omega
    · exact List.mem_append_left _ hr
  · exact List.mem_append_right _ hr

/-- Three segments with one record each, and a call for the redo point 3. -/
def threeSegments : List Bytes :=
  [bytesOf [⟨1, log_commit 5⟩], bytesOf [⟨2, log_commit 6⟩], bytesOf [⟨3, log_commit 7⟩]]

def reclaimTwo : List Event := .reclaim_segments_below 3 :: List.replicate 8 (.run 0)

/-- The first two segments go, and the third record is still there. -/
theorem the_third_segment_is_kept :
    ∃ w, Runs.run step (.opened 64 40 threeSegments 3) reclaimTwo = some w ∧ w.gone = [0, 1] ∧
      ∃ (g d : Nat) (groups : List (List Logged)) (last : List Logged),
        g ≤ w.wal.writer.closed.length ∧
        (∀ kept, w.left kept = (w.wal.writer.survivors kept).drop g) ∧
        w.wal.writer.closed = groups.map bytesOf ∧
        w.wal.writer.file.take w.wal.writer.synced = bytesOf last ∧
        w.wal.flushed_lsn ≤ 3 + d ∧
        groups.flatten ++ last =
          [⟨1, log_commit 5⟩, ⟨2, log_commit 6⟩, ⟨3, log_commit 7⟩] ++ w.wal.log.take d ∧
        ∀ r ∈ [⟨1, log_commit 5⟩, ⟨2, log_commit 6⟩, ⟨3, log_commit 7⟩] ++ w.wal.log.take d,
          3 ≤ r.lsn → r ∈ (groups.drop g).flatten ++ last := by
  have hex : ∃ w, Runs.run step (.opened 64 40 threeSegments 3) reclaimTwo = some w ∧
      w.gone = [0, 1] ∧ w.wal.next_lsn ≤ 2 ^ 64 ∧ ∀ c ∈ w.calls, c.redo_point ≤ 3 :=
    Runs.exists_run (by decide +kernel)
  obtain ⟨w, hrun, hgone, hlsn, hredo⟩ := hex
  have hwhole : Whole [⟨1, log_commit 5⟩, ⟨2, log_commit 6⟩, ⟨3, log_commit 7⟩]
      (.open 40 threeSegments) :=
    ⟨[[⟨1, log_commit 5⟩], [⟨2, log_commit 6⟩]], [⟨3, log_commit 7⟩], rfl, by decide +kernel,
      by decide +kernel⟩
  exact ⟨w, hrun, hgone,
    reclaim_keeps_what_redo_needs hwhole (by decide) (by decide) hrun hlsn hredo⟩

end FluxDB.SegmentReclaim
