import Mathlib.Data.List.TakeWhile
import VectorDb.Wal.Contents

namespace VectorDb.Storage
open Lib Common BinarySerializer

def recordsFrom (limit : Option Nat) : Nat → Bytes → List (WALEntry × Nat)
  | 0, _ => []
  | fuel + 1, rest =>
    match readRecord limit rest with
    | none => []
    | some (entry, size) => (entry, size) :: recordsFrom limit fuel (rest.drop size)

def records (limit : Option Nat) (file : Bytes) : List (WALEntry × Nat) := recordsFrom limit file.length file

def WithinPayload (record : WALEntry × Nat) : Prop := record.2 ≤ kWALHeaderSize + kMaxPayload

instance (record : WALEntry × Nat) : Decidable (WithinPayload record) := inferInstanceAs (Decidable (_ ≤ _))

def nextLsn (entries : List WALEntry) : Nat := (entries.map WALEntry.sequenceNumber).max?.elim 1 (· + 1)

structure ScannersAgree (file : Bytes) : Prop where
  next : (WAL.open (some file)).nextSequenceNumber = nextLsn (WAL.readAll file)
  counted : ∀ (i : Nat) (entry : WALEntry), (scan none file)[i]? = some entry → (WAL.readAll file)[i]? = some entry

theorem scanFrom_eq (limit : Option Nat) (fuel : Nat) (rest : Bytes) :
    scanFrom limit fuel rest = (recordsFrom limit fuel rest).map Prod.fst := by
  induction fuel generalizing rest with
  | zero => rfl
  | succ fuel ih =>
    rw [scanFrom, recordsFrom]
    cases readRecord limit rest with
    | none => rfl
    | some record => simp [ih]

theorem scan_eq (limit : Option Nat) (file : Bytes) : scan limit file = (records limit file).map Prod.fst :=
  scanFrom_eq limit _ file

theorem readRecord_bounded (bound : Nat) (rest : Bytes) :
    readRecord (some bound) rest =
      (readRecord none rest).filter fun record => record.2 ≤ kWALHeaderSize + bound := by
  ext ⟨entry, size⟩
  simp only [readRecord, guard_bind, Option.ite_none_right_eq_some, Option.filter_eq_some_iff, Option.bind_eq_bind,
    Option.bind_eq_some_iff, Option.pure_def, Option.some.injEq, Prod.mk.injEq, decide_eq_true_eq]
  constructor
  · rintro ⟨header, length, lengthRead, crc, crcRead, small, whole, checked, e, parsed, rfl, rfl⟩
    refine ⟨⟨header, length, lengthRead, crc, crcRead, by simp, whole, checked, e, parsed, rfl, rfl⟩, ?_⟩
    simpa using small
  · rintro ⟨⟨header, length, lengthRead, crc, crcRead, -, whole, checked, e, parsed, rfl, rfl⟩, small⟩
    exact ⟨header, length, lengthRead, crc, crcRead, by simpa using small, whole, checked, e, parsed, rfl, rfl⟩

theorem recordsFrom_bounded (fuel : Nat) (rest : Bytes) :
    recordsFrom (some kMaxPayload) fuel rest = (recordsFrom none fuel rest).takeWhile (WithinPayload ·) := by
  induction fuel generalizing rest with
  | zero => rfl
  | succ fuel ih =>
    rw [recordsFrom, recordsFrom, readRecord_bounded]
    cases readRecord none rest with
    | none => rfl
    | some record =>
      by_cases within : WithinPayload record
      · have small : record.2 ≤ kWALHeaderSize + kMaxPayload := within
        simp [Option.filter, small, within, ih]
      · have large : ¬ record.2 ≤ kWALHeaderSize + kMaxPayload := within
        simp [Option.filter, large, within]

theorem readAll_eq_takeWhile (file : Bytes) :
    WAL.readAll file = ((records none file).takeWhile (WithinPayload ·)).map Prod.fst := by
  rw [WAL.readAll, scan_eq, records, recordsFrom_bounded, records]

theorem max?_concat (lsns : List Nat) (lsn : Nat) :
    (lsns ++ [lsn]).max? = some (lsns.max?.elim lsn (max · lsn)) := by
  cases lsns <;> simp [List.max?]

theorem nextAfter_eq {entry : WALEntry} (below : entry.sequenceNumber < 2 ^ 64 - 1) (next : Nat) :
    WAL.nextAfter next entry = max next (entry.sequenceNumber + 1) := by
  rw [WAL.nextAfter, Nat.mod_eq_of_lt (by omega)]
  split <;> omega

theorem foldl_nextAfter_eq {entries : List WALEntry} (below : ∀ entry ∈ entries, entry.sequenceNumber < 2 ^ 64 - 1) :
    entries.foldl WAL.nextAfter 1 = nextLsn entries := by
  induction entries using List.reverseRecOn with
  | nil => rfl
  | append_singleton entries entry ih =>
    rw [List.foldl_append, ih fun other member => below other (by simp [member]), List.foldl_cons, List.foldl_nil,
      nextAfter_eq (below entry (by simp)), nextLsn, nextLsn, List.map_append, List.map_cons, List.map_nil, max?_concat]
    cases (entries.map WALEntry.sequenceNumber).max? with
    | none => simp
    | some largest => simp

theorem readAll_eq_scan {file : Bytes} (within : ∀ record ∈ records none file, WithinPayload record) :
    WAL.readAll file = scan none file := by
  rw [readAll_eq_takeWhile, scan_eq, List.takeWhile_eq_self_iff.mpr]
  simpa using within

theorem within_of_counted {file : Bytes} (counted : ∀ (i : Nat) (entry : WALEntry),
    (scan none file)[i]? = some entry → (WAL.readAll file)[i]? = some entry) :
    ∀ record ∈ records none file, WithinPayload record := by
  have enough : (records none file).length ≤ ((records none file).takeWhile (WithinPayload ·)).length := by
    by_contra short
    have inside : ((records none file).takeWhile (WithinPayload ·)).length < (scan none file).length := by
      rw [scan_eq, List.length_map]
      exact not_le.mp short
    have found := counted _ _ (List.getElem?_eq_getElem inside)
    rw [readAll_eq_takeWhile, List.getElem?_eq_none (by simp)] at found
    cases found
  have whole := (List.takeWhile_sublist (WithinPayload · : WALEntry × Nat → Bool)).eq_of_length_le enough
  simpa using List.takeWhile_eq_self_iff.mp whole

theorem scanners_agree_iff (file : Bytes) (below : ∀ entry ∈ scan none file, entry.sequenceNumber < 2 ^ 64 - 1) :
    ScannersAgree file ↔ ∀ record ∈ records none file, WithinPayload record := by
  refine ⟨fun agree => within_of_counted agree.counted, fun within => ?_⟩
  have same := readAll_eq_scan within
  refine ⟨?_, fun i entry found => same ▸ found⟩
  rw [same, ← foldl_nextAfter_eq below]
  rfl

theorem scanners_agree_two_records : ScannersAgree (logBytes [.put [97] [1], .delete [97]]) :=
  (scanners_agree_iff _ (by decide +kernel)).mpr (by decide +kernel)

theorem LogRecord.Readable.disagree {record : LogRecord} (readable : record.Readable none)
    (large : kMaxPayload < record.mutation.payloadSize) : ¬ ScannersAgree record.bytes := by
  intro agree
  have read := readRecord_serializeEntry none record.mutation record.lsn [] readable.lsnFits readable.fits
    readable.within
  rw [List.append_nil] at read
  have stops : readRecord (some kMaxPayload) record.bytes = none := by
    rw [readRecord_bounded, LogRecord.bytes, LogRecord.entry, read]
    simp [Option.filter, large]
  have found := agree.counted 0 record.entry (by
    rw [scan_cons (by exact read)]
    rfl)
  rw [WAL.readAll, scan_stop stops] at found
  cases found

theorem large_value_not_read :
    ¬ ∀ file : Bytes, (∀ entry ∈ scan none file, entry.sequenceNumber < 2 ^ 64 - 1) → ScannersAgree file := by
  intro agree
  -- The length stays a variable, so that no list of this length is ever built.
  obtain ⟨n, isLength⟩ : ∃ n, n = kMaxPayload := ⟨_, rfl⟩
  have size : (Mutation.put [] (List.replicate n 0)).payloadSize = 17 + n := by
    simp [Mutation.payloadSize, ← Nat.add_assoc]
  have readable : LogRecord.Readable none ⟨.put [] (List.replicate n 0), 1⟩ := by
    refine ⟨by simp, ?_, by simp⟩
    simp only [size]
    rw [isLength, kMaxPayload]
    omega
  refine readable.disagree (by simp only [size]; omega) (agree _ ?_)
  have counted := scan_records none [⟨.put [] (List.replicate n 0), 1⟩] [] (by simpa using readable)
    (readRecord_nil none)
  simp only [List.flatMap_cons, List.flatMap_nil, List.append_nil] at counted
  rw [counted]
  simp [LogRecord.entry, Mutation.entry]

end VectorDb.Storage
