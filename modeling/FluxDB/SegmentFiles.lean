-- The segment files of the log: records are written one behind the other, a record that does not
-- fit goes into a new segment, and any write, rotation or sync may fail. What such files hold is
-- whole records, and maybe the front of one more.
import FluxDB.TornTails

namespace FluxDB

open List

/-- What `append` and a flush return when they fail. -/
inductive FlushError
  | RecordTooLarge (lsn record_len capacity : Nat)
  | BufferFull (needed available : Nat)
  | FlushFailed (cause : FlushError)
  | Io
  deriving DecidableEq, Repr

/-! ## The segment files -/

/-- The files of the log. The segments behind the current one were synced when they were
left; of the current one the first `synced` bytes are durable. -/
structure SegmentWriter where
  segment_size : Nat
  closed : List Bytes
  file : Bytes
  synced : Nat
  deriving DecidableEq, Repr

/-- Where the write of a record can fail: at the sync of the segment that is full, at the
creation of the next one, at the sync of the directory, or at the write itself, of which some
bytes may have reached the file. -/
inductive WriteFault
  | rotate_sync
  | rotate_open
  | rotate_dir
  | write (reached : Nat)
  deriving DecidableEq, Repr

namespace SegmentWriter

variable (w : SegmentWriter)

def offset : Nat := w.file.length

def segments : List Bytes := w.closed ++ [w.file]

/-- The files as a crash can leave them: everything that was synced, and of the current
segment whatever had reached the disk by then. -/
def survivors (kept : Nat) : List Bytes := w.closed ++ [w.file.take kept]

def sync : SegmentWriter := { w with synced := w.offset }

def rotate : SegmentWriter := { w with closed := w.closed ++ [w.file], file := [], synced := 0 }

def needs_rotation (record : Bytes) : Bool :=
  decide (w.offset > 0 ∧ w.offset + record.length > w.segment_size)

/-- The writer with room for the record. -/
def ready (record : Bytes) : SegmentWriter := if w.needs_rotation record then w.rotate else w

/-- `write_record`, with the place where it fails if it does. The result is `none` where it
cannot fail in this place. -/
def write_record (lsn : Nat) (record : Bytes) :
    Option WriteFault → Option (Except FlushError Unit × SegmentWriter)
  | none =>
    if record.length > w.segment_size then
      some (.error (.RecordTooLarge lsn record.length w.segment_size), w)
    else
      let w := w.ready record
      some (.ok (), { w with file := w.file ++ record })
  | some (.write reached) =>
    if record.length ≤ w.segment_size ∧ reached ≤ record.length then
      let w := w.ready record
      some (.error .Io, { w with file := w.file ++ record.take reached })
    else none
  | some .rotate_sync =>
    if record.length ≤ w.segment_size ∧ w.needs_rotation record then some (.error .Io, w) else none
  | some .rotate_open =>
    if record.length ≤ w.segment_size ∧ w.needs_rotation record then some (.error .Io, w.sync)
    else none
  | some .rotate_dir =>
    if record.length ≤ w.segment_size ∧ w.needs_rotation record then some (.error .Io, w.rotate)
    else none

end SegmentWriter

/-- The writer goes on in the last segment unless that one is full. -/
def SegmentWriter.open (segment_size : Nat) (segments : List Bytes) : SegmentWriter :=
  match segments.getLast? with
  | none => ⟨segment_size, [], [], 0⟩
  | some file =>
    if file.length ≥ segment_size then ⟨segment_size, segments, [], 0⟩
    else ⟨segment_size, segments.dropLast, file, file.length⟩

/-! ## What the files hold -/

/-- The files hold exactly these records. -/
def Whole (rs : List Logged) (w : SegmentWriter) : Prop :=
  ∃ (groups : List (List Logged)) (last : List Logged), groups.flatten ++ last = rs ∧
    w.closed = groups.map bytesOf ∧ w.file = bytesOf last

/-- The files hold these records and maybe the front of one more. -/
def Holds (rs : List Logged) (closed : List Bytes) (file : Bytes) : Prop :=
  ∃ (groups : List (List Logged)) (last : List Logged) (torn : Bytes), TornTail torn ∧
    groups.flatten ++ last = rs ∧ closed = groups.map bytesOf ∧ file = bytesOf last ++ torn

/-- A segment holds the whole record, behind other whole records. -/
def HoldsRecord (segments : List Bytes) (r : Logged) : Prop :=
  r.Fits ∧ ∃ segment ∈ segments, ∃ front : List Logged, (∀ x ∈ front, x.Fits) ∧
    bytesOf front ++ r.bytes <+: segment

variable {closed : List Bytes} {file : Bytes} {rs : List Logged} {w : SegmentWriter}
  {r : Logged}

theorem Whole.holds (h : Whole rs w) : Holds rs w.closed w.file := by
  obtain ⟨groups, last, hrs, hclosed, hfile⟩ := h
  exact ⟨groups, last, [], tornTail_nil, hrs, hclosed, by rw [hfile, append_nil]⟩

theorem Holds.holdsRecord (h : Holds rs closed file) (hfits : ∀ x ∈ rs, x.Fits) (hr : r ∈ rs) :
    HoldsRecord (closed ++ [file]) r := by
  obtain ⟨groups, last, torn, _, rfl, rfl, rfl⟩ := h
  refine ⟨hfits r hr, ?_⟩
  rcases mem_append.mp hr with hr | hr
  · obtain ⟨g, hg, hr⟩ := mem_flatten.mp hr
    obtain ⟨front, back, rfl⟩ := append_of_mem hr
    refine ⟨_, mem_append_left _ (mem_map_of_mem hg), front, fun x hx => ?_, ?_⟩
    · exact hfits x (mem_append_left _
        (mem_flatten.mpr ⟨_, hg, mem_append_left _ hx⟩))
    · simp
  obtain ⟨front, back, rfl⟩ := append_of_mem hr
  refine ⟨_, mem_append_right _ mem_cons_self, front, fun x hx => ?_, ?_⟩
  · exact hfits x (mem_append_right _ (mem_append_left _ hx))
  · simp

/-- The record that a reader finds in front is the first of the whole ones. -/
theorem cons_of_next_record {g : List Logged} {torn rest : Bytes} {record : WalRecord}
    (hg : ∀ x ∈ g, x.Fits) (htorn : TornTail torn)
    (h : next_record [bytesOf g ++ torn] = some (.ok (record, [rest]))) :
    ∃ y g', g = y :: g' ∧ y.record = record ∧ bytesOf g' ++ torn = rest := by
  cases g with
  | nil =>
    rw [bytesOf_nil, nil_append, next_record_torn htorn] at h
    split at h <;> cases h
  | cons y g =>
    rw [bytesOf_cons, append_assoc, next_record_logged (hg y mem_cons_self)] at h
    simp only [Option.some.injEq, Except.ok.injEq, Prod.mk.injEq, List.cons.injEq, and_true] at h
    exact ⟨y, g, rfl, h.1, h.2⟩

/-- Whole records at the front of a segment are the ones that a reader finds there. -/
theorem mem_of_prefix {g front : List Logged} {torn : Bytes} (hg : ∀ x ∈ g, x.Fits)
    (htorn : TornTail torn) (hfront : ∀ x ∈ front, x.Fits) (hr : r.Fits)
    (h : bytesOf front ++ r.bytes <+: bytesOf g ++ torn) : ∃ r' ∈ g, r'.record = r.record := by
  obtain ⟨post, hpost⟩ := h
  induction front generalizing g with
  | nil =>
    have hread := next_record_logged hr post
    rw [bytesOf_nil, nil_append] at hpost
    rw [hpost] at hread
    obtain ⟨y, g, rfl, hrec, _⟩ := cons_of_next_record hg htorn hread
    exact ⟨y, mem_cons_self, hrec⟩
  | cons x front ih =>
    have hread := next_record_logged (hfront x mem_cons_self) (bytesOf front ++ r.bytes ++ post)
    rw [bytesOf_cons, append_assoc, append_assoc, ← append_assoc _ _ post] at hpost
    rw [hpost] at hread
    obtain ⟨y, g, rfl, _, hrest⟩ := cons_of_next_record hg htorn hread
    obtain ⟨r', hr', hrec⟩ := ih (fun x hx => hg x (mem_cons_of_mem _ hx))
      (fun x hx => hfront x (mem_cons_of_mem _ hx)) hrest.symm
    exact ⟨r', mem_cons_of_mem _ hr', hrec⟩

theorem Holds.mem_of_holdsRecord (h : Holds rs closed file) (hfits : ∀ x ∈ rs, x.Fits)
    (hheld : HoldsRecord (closed ++ [file]) r) : ∃ r' ∈ rs, r'.record = r.record := by
  obtain ⟨groups, last, torn, htorn, rfl, rfl, rfl⟩ := h
  obtain ⟨hr, segment, hsegment, front, hfront, hpre⟩ := hheld
  rcases mem_append.mp hsegment with hseg | hseg
  · obtain ⟨g, hg, rfl⟩ := mem_map.mp hseg
    have hsub : ∀ x ∈ g, x ∈ groups.flatten ++ last := fun x hx =>
      mem_append_left _ (mem_flatten.mpr ⟨g, hg, hx⟩)
    rw [← append_nil (bytesOf g)] at hpre
    obtain ⟨r', hr', hrec⟩ := mem_of_prefix (fun x hx => hfits x (hsub x hx)) tornTail_nil hfront hr
      hpre
    exact ⟨r', hsub r' hr', hrec⟩
  cases mem_singleton.mp hseg
  obtain ⟨r', hr', hrec⟩ := mem_of_prefix
    (fun x hx => hfits x (mem_append_right _ hx)) htorn hfront hr hpre
  exact ⟨r', mem_append_right _ hr', hrec⟩

theorem segmented_of_whole (h : Whole rs w) :
    Running.Segmented w.segments (rs.map Logged.bytes) := by
  obtain ⟨groups, last, rfl, hclosed, hfile⟩ := h
  refine ⟨(groups ++ [last]).map fun g => g.map Logged.bytes, ?_, ?_⟩
  · rw [← map_flatten]
    simp
  unfold SegmentWriter.segments
  rw [hclosed, hfile, List.map_map, map_append]
  rfl

/-- The writer that is opened on whole records holds them. -/
theorem whole_open {groups : List (List Logged)} {last : List Logged}
    (hrs : groups.flatten ++ last = rs) (segment_size : Nat) :
    Whole rs (.open segment_size (groups.map bytesOf ++ [bytesOf last])) := by
  unfold SegmentWriter.open
  rw [getLast?_concat]
  dsimp only
  split
  · exact ⟨groups ++ [last], [], by simpa using hrs, by simp, rfl⟩
  · exact ⟨groups, last, hrs, by simp, rfl⟩

end FluxDB
