-- A bad tail. Whatever stands behind the last record of the log, `Wal::new` cuts it off if it is
-- too short for a type byte and one byte more, or if it starts with a known type and its fields
-- reach the end of the file. Any other tail is refused as damage.
import FluxDB.DamagedRecords

namespace FluxDB

open Bytes List Except WalReader

/-! ## Tails that are too short -/

theorem read_record_short {bs : Bytes} (hlen : bs.length < 13) :
    (WalReader.mk bs []).read_record = .error .UnexpectedEof := by
  unfold read_record
  by_cases h8 : 8 ≤ bs.length
  · rw [read_exact_eq, if_pos h8, ok_bind]
    dsimp only
    by_cases h4 : 4 ≤ (bs.drop 8).length
    · have h1 : ¬ 1 ≤ ((bs.drop 8).drop 4).length := by
        rw [length_drop, length_drop]
        omega
      rw [read_exact_eq, if_pos h4, ok_bind]
      dsimp only
      rw [read_exact_eq, if_neg h1]
      rfl
    rw [read_exact_eq, if_neg h4]
    rfl
  rw [read_exact_eq, if_neg h8]
  rfl

/-- The tail ends at the type byte or in front of it. -/
theorem torn_of_short {bs : Bytes} {e : WalError} (hlen : bs.length ≤ 13)
    (h : next_record [bs] = some (.error e)) : e = .UnexpectedEof ∨ err_pos bs e = bs.length := by
  have hread := read_record_of_next_record h
  by_cases hlt : bs.length < 13
  · rw [read_record_short hlt] at hread
    cases hread
    exact .inl rfl
  have heq : bs.length = 13 := by omega
  obtain ⟨lsn, rec_len, hashed, hrecord⟩ := read_record_eq heq.ge
  rw [hread] at hrecord
  cases htype : typeAt bs with
  | none =>
    rw [htype] at hrecord
    cases hrecord
    exact .inr heq.symm
  | some entry_type =>
    rw [htype] at hrecord
    have hdrop : (bs.drop 13).length = 0 := by rw [length_drop, heq]
    have hx := (reaches_behind_type lsn rec_len entry_type).short (bs.drop 13) hashed
      (by omega)
    cases hrecord.trans hx
    exact .inl rfl

/-- The smallest record has 28 bytes. -/
theorem next_record_of_short {bs : Bytes} (hlen : bs.length < 28)
    (x : WalRecord × List Bytes) : next_record [bs] ≠ some (.ok x) := by
  intro h
  cases bs with
  | nil => cases h
  | cons b bs =>
    have hok : ∃ y, (WalReader.mk (b :: bs) []).read_record = .ok y := by
      have hread : ((WalReader.mk (b :: bs) []).read_record >>= fun x =>
          Except.ok (x.1, [x.2.rest])) = .ok x := Option.some.inj h
      obtain ⟨y, hy, -⟩ := bind_eq_ok.mp hread
      exact ⟨y, hy⟩
    obtain ⟨y, hy⟩ := hok
    by_cases hlt : (b :: bs).length < 13
    · rw [read_record_short hlt] at hy
      cases hy
    obtain ⟨lsn, rec_len, hashed, hrecord⟩ := read_record_eq (Nat.not_lt.mp hlt)
    rw [hy] at hrecord
    cases htype : typeAt (b :: bs) with
    | none =>
      rw [htype] at hrecord
      cases hrecord
    | some entry_type =>
      rw [htype] at hrecord
      have hdrop : ((b :: bs).drop 13).length = (b :: bs).length - 13 := length_drop
      have hx := (reaches_behind_type lsn rec_len entry_type).short
        ((b :: bs).drop 13) hashed (by omega)
      cases hrecord.trans hx

/-! ## Opening a log with a bad tail -/

namespace WalThreads

/-- No record with a right checksum starts anywhere in the tail. -/
def Bad (tail : Bytes) : Prop :=
  ∀ k < tail.length, ∀ x, next_record [tail.drop k] ≠ some (.ok x)

theorem bad_of_short {tail : Bytes} (hlen : tail.length < 28) : Bad tail := by
  intro k _ x
  refine next_record_of_short ?_ x
  rw [length_drop]
  omega

theorem Bad.next_record {tail : Bytes} (h : Bad tail) (hne : tail ≠ []) :
    ∃ e, next_record [tail] = some (.error e) := by
  have hfirst := h 0 (length_pos_iff.mpr hne)
  rw [drop_zero] at hfirst
  cases hnext : FluxDB.next_record [tail] with
  | none =>
    cases tail with
    | nil => exact absurd rfl hne
    | cons b bs => cases hnext
  | some result =>
    cases result with
    | error e => exact ⟨e, rfl⟩
    | ok x => exact absurd hnext (hfirst x)

/-- A bad tail is cut off, and the log opens with all its records and goes on behind the last one,
if and only if the tail is too short for a byte behind its type, or its type is known and its
fields reach the end of the file. -/
theorem a_bad_tail_is_cut_off_iff_it_reaches_the_end (buffer_capacity segment_size base : Nat)
    {groups : List (List Logged)} {last : List Logged} {tail : Bytes}
    (hfits : ∀ x ∈ groups.flatten ++ last, x.Fits)
    (hnum : NumberedFrom base (groups.flatten ++ last))
    (hbase : groups.flatten ++ last = [] → base = 0) (hne : tail ≠ []) (hbad : Bad tail) :
    new_with_options buffer_capacity segment_size (groups.map bytesOf ++ [bytesOf last ++ tail]) =
        .ok (.opened buffer_capacity segment_size (groups.map bytesOf ++ [bytesOf last])
          (base + (groups.flatten ++ last).length)) ↔
      tail.length ≤ 13 ∨ (typeAt tail ≠ none ∧ tail.length ≤ extent tail) := by
  obtain ⟨e, hnext⟩ := hbad.next_record hne
  have htorn : (e = .UnexpectedEof ∨ err_pos tail e = tail.length) ↔
      tail.length ≤ 13 ∨ (typeAt tail ≠ none ∧ tail.length ≤ extent tail) := by
    by_cases hlen : tail.length ≤ 13
    · exact ⟨fun _ => Or.inl hlen, fun _ => torn_of_short hlen hnext⟩
    · rw [torn_iff (Nat.not_le.mp hlen) hnext]
      exact ⟨Or.inr, fun h => h.resolve_left hlen⟩
  have hgroups : ∀ x ∈ groups.flatten, x.Fits := fun x hx => hfits x (List.mem_append_left _ hx)
  have hlast : ∀ x ∈ last, x.Fits := fun x hx => hfits x (List.mem_append_right _ hx)
  obtain ⟨hnext_lsn, hflushed⟩ := scan_numbered hnum hbase
  unfold new_with_options
  rw [scan_segments_append hgroups (List.cons_ne_nil _ _), scan_segments,
    scan_segment_damaged _ hlast hnext, ← htorn]
  by_cases hcut : e = .UnexpectedEof ∨ err_pos tail e = tail.length
  · rw [if_pos ⟨rfl, hcut⟩]
    refine ⟨fun _ => hcut, fun _ => ?_⟩
    simp only [Except.ok_bind, scan_segments, Except.map]
    rw [← List.foldl_append, hnext_lsn, hflushed]
    rfl
  · rw [if_neg fun h => hcut h.2]
    refine ⟨fun h => ?_, fun h => absurd h hcut⟩
    cases h

/-- Three bytes behind the only record are cut off. -/
theorem three_bytes_are_cut_off :
    new_with_options 64 64 [bytesOf [⟨1, log_commit 5⟩] ++ [1, 2, 3]] =
      .ok (.opened 64 64 [bytesOf [⟨1, log_commit 5⟩]] 1) := by
  have hfits : ∀ x ∈ ([] : List (List Logged)).flatten ++ [Logged.mk 1 (log_commit 5)], x.Fits := by
    intro x hx
    rw [List.mem_singleton.mp hx]
    exact ⟨fits_log_commit 5, by decide⟩
  have hnum : NumberedFrom 0 (([] : List (List Logged)).flatten ++ [⟨1, log_commit 5⟩]) := by
    intro i r hr
    obtain ⟨hi, rfl⟩ := List.getElem?_eq_some_iff.mp hr
    obtain rfl : i = 0 := Nat.lt_one_iff.mp hi
    rfl
  exact (a_bad_tail_is_cut_off_iff_it_reaches_the_end 64 64 0 hfits hnum (fun _ => rfl)
    (List.cons_ne_nil _ _) (bad_of_short (by decide))).mpr (Or.inl (by decide))

/-- Fourteen bytes 255 stand behind the only record. No record starts in them, and the log does not
open. -/
theorem a_tail_of_an_unknown_type_is_refused :
    Bad (List.replicate 14 255) ∧
    new_with_options 64 64 [bytesOf [⟨1, log_commit 5⟩] ++ List.replicate 14 255] =
      .error (.wal (.InvalidEntryType 255)) :=
  ⟨bad_of_short (by decide), by decide +kernel⟩

end WalThreads

end FluxDB
