-- What the segment files of an open log hold: what they held when the log was opened, then a
-- front of the records that were appended since, each whole in one segment, and behind a failed
-- write a piece of the next one. The part of them that was synced is such a front as well.
import FluxDB.SegmentFiles

namespace FluxDB.WalThreads

open List

/-- The files hold what the files `o` held, then these records, each whole in one segment, and
then `piece`. -/
def Written (o : SegmentWriter) (rs : List Logged) (piece : Bytes)
    (closed : List Bytes) (file : Bytes) : Prop :=
  (closed = o.closed ∧ file = o.file ++ bytesOf rs ++ piece) ∨
  ∃ (first : List Logged) (groups : List (List Logged)) (last : List Logged),
    first ++ groups.flatten ++ last = rs ∧
    closed = o.closed ++ (o.file ++ bytesOf first) :: groups.map bytesOf ∧
    file = bytesOf last ++ piece

/-- The files hold the first records of the log and maybe a front of the next one. -/
def Traced (o : SegmentWriter) (log : List Logged) (w : SegmentWriter) : Prop :=
  ∃ n piece, n ≤ log.length ∧ piece <+: bytesOf ((log.drop n).take 1) ∧
    Written o (log.take n) piece w.closed w.file

/-- The bytes that were synced hold the first `m` records of the log. -/
def SyncedTo (o : SegmentWriter) (log : List Logged) (m : Nat) (w : SegmentWriter) : Prop :=
  w.synced ≤ w.file.length ∧ Written o (log.take m) [] w.closed (w.file.take w.synced)

variable {o w w' : SegmentWriter} {rs log : List Logged} {piece : Bytes}
  {closed : List Bytes} {file : Bytes} {n m : Nat} {r : Logged}

namespace Written

theorem refl (o : SegmentWriter) : Written o [] [] o.closed o.file := by
  left
  refine ⟨rfl, ?_⟩
  rw [bytesOf_nil, append_nil, append_nil]

theorem rotate (h : Written o rs [] closed file) : Written o rs [] (closed ++ [file]) [] := by
  right
  rcases h with ⟨hclosed, hfile⟩ | ⟨first, groups, last, hrs, hclosed, hfile⟩
  · refine ⟨rs, [], [], by simp, ?_, rfl⟩
    rw [hclosed, hfile, append_nil]
    rfl
  refine ⟨first, groups ++ [last], [], by simpa using hrs, ?_, rfl⟩
  rw [hclosed, hfile, append_nil]
  simp

theorem put (h : Written o rs [] closed file) (piece : Bytes) :
    Written o rs piece closed (file ++ piece) := by
  rcases h with ⟨hclosed, hfile⟩ | ⟨first, groups, last, hrs, hclosed, hfile⟩
  · left
    exact ⟨hclosed, by rw [hfile, append_nil]⟩
  right
  exact ⟨first, groups, last, hrs, hclosed, by rw [hfile, append_nil]⟩

/-- A piece that is the whole next record is one more record. -/
theorem complete (h : Written o rs r.bytes closed file) : Written o (rs ++ [r]) [] closed file := by
  rcases h with ⟨hclosed, hfile⟩ | ⟨first, groups, last, hrs, hclosed, hfile⟩
  · left
    refine ⟨hclosed, ?_⟩
    rw [hfile]
    simp
  right
  refine ⟨first, groups, last ++ [r], ?_, hclosed, ?_⟩
  · rw [← hrs]
    simp
  rw [hfile]
  simp

end Written

theorem take_succ_of_getElem? (hr : log[n]? = some r) : log.take (n + 1) = log.take n ++ [r] := by
  rw [take_add_one, hr]
  rfl

theorem next_of_getElem? (hr : log[n]? = some r) : bytesOf ((log.drop n).take 1) = r.bytes := by
  obtain ⟨hn, rfl⟩ := List.getElem?_eq_some_iff.mp hr
  rw [drop_eq_getElem_cons hn, take_succ_cons, take_zero, bytesOf_cons, bytesOf_nil, append_nil]

theorem Written.traced (h : Written o (log.take n) [] w.closed w.file) (hn : n ≤ log.length) :
    Traced o log w := ⟨n, [], hn, List.nil_prefix, h⟩

/-- A record that is appended comes behind what the files hold. -/
theorem Traced.grow (h : Traced o log w) (r : Logged) : Traced o (log ++ [r]) w := by
  obtain ⟨n, piece, hn, hpiece, hwritten⟩ := h
  refine ⟨n, piece, hn.trans (by simp), ?_, ?_⟩
  swap
  · rwa [take_append_of_le_length hn]
  by_cases hlt : n < log.length
  · rw [drop_append_of_le_length hn, take_append_of_le_length]
    · exact hpiece
    rw [length_drop]
    omega
  rw [drop_of_length_le (by omega), take_nil, bytesOf_nil] at hpiece
  rw [List.prefix_nil.mp hpiece]
  exact List.nil_prefix

theorem SyncedTo.grow (h : SyncedTo o log m w) (hm : m ≤ log.length) (r : Logged) :
    SyncedTo o (log ++ [r]) m w := by
  unfold SyncedTo
  rwa [take_append_of_le_length hm]

theorem SyncedTo.rotate (h : Written o (log.take n) [] w.closed w.file) :
    SyncedTo o log n w.rotate := ⟨le_rfl, h.rotate⟩

theorem SyncedTo.sync (h : Written o (log.take n) [] w.closed w.file) :
    SyncedTo o log n w.sync := by
  refine ⟨le_rfl, ?_⟩
  unfold SegmentWriter.sync SegmentWriter.offset
  dsimp only
  rwa [take_length]

theorem SyncedTo.put (h : SyncedTo o log m w) (piece : Bytes) :
    SyncedTo o log m { w with file := w.file ++ piece } := by
  obtain ⟨hle, hwritten⟩ := h
  refine ⟨hle.trans (by simp), ?_⟩
  dsimp only
  rwa [take_append_of_le_length hle]

section

variable (h : Written o (log.take n) [] w.closed w.file) (hs : SyncedTo o log m w) (hmn : m ≤ n)

include h hs hmn

/-- Before a record is written the files are synced if they go on in a new segment. -/
theorem ready_written (record : Bytes) :
    Written o (log.take n) [] (w.ready record).closed (w.ready record).file ∧
      ∃ m', m ≤ m' ∧ m' ≤ n ∧ SyncedTo o log m' (w.ready record) := by
  unfold SegmentWriter.ready
  split
  · exact ⟨h.rotate, n, hmn, le_rfl, SyncedTo.rotate h⟩
  · exact ⟨h, m, le_rfl, hmn, hs⟩

/-- The write of the next record puts it behind the others or fails with a piece of it there. -/
theorem write_record_spec (hr : log[n]? = some r) {fault : Option WriteFault}
    {result : Except FlushError Unit}
    (hwrite : w.write_record r.lsn r.bytes fault = some (result, w')) :
    Traced o log w' ∧ (∃ m', m ≤ m' ∧ m' ≤ n ∧ SyncedTo o log m' w') ∧
      (result = .ok () → Written o (log.take (n + 1)) [] w'.closed w'.file) := by
  have hn : n ≤ log.length := (List.getElem?_eq_some_iff.mp hr).1.le
  obtain ⟨hready, m', hm, hm', hsready⟩ := ready_written h hs hmn r.bytes
  have hput : ∀ reached, Traced o log
      { w.ready r.bytes with file := (w.ready r.bytes).file ++ r.bytes.take reached } := by
    intro reached
    refine ⟨n, r.bytes.take reached, hn, ?_, hready.put _⟩
    rw [next_of_getElem? hr]
    exact List.take_prefix _ _
  unfold SegmentWriter.write_record at hwrite
  split at hwrite
  · split at hwrite
    · cases hwrite
      exact ⟨h.traced hn, ⟨m, le_rfl, hmn, hs⟩, nofun⟩
    cases hwrite
    have hall := hput r.bytes.length
    rw [take_length] at hall
    refine ⟨hall, ⟨m', hm, hm', hsready.put _⟩, fun _ => ?_⟩
    rw [take_succ_of_getElem? hr]
    exact (hready.put r.bytes).complete
  · split at hwrite
    · cases hwrite
      exact ⟨hput _, ⟨m', hm, hm', hsready.put _⟩, nofun⟩
    · cases hwrite
  · split at hwrite
    · cases hwrite
      exact ⟨h.traced hn, ⟨m, le_rfl, hmn, hs⟩, nofun⟩
    · cases hwrite
  · split at hwrite
    · cases hwrite
      exact ⟨h.traced hn, ⟨n, hmn, le_rfl, SyncedTo.sync h⟩, nofun⟩
    · cases hwrite
  split at hwrite
  · cases hwrite
    exact ⟨Written.traced h.rotate hn, ⟨n, hmn, le_rfl, SyncedTo.rotate h⟩, nofun⟩
  · cases hwrite

end

end FluxDB.WalThreads
