import VectorDb.Lib.TableChecksum
import VectorDb.Wal.Log

namespace VectorDb.Storage
open Lib Common

theorem crc32TableStep_eq (crc : BitVec 32) :
    crc32TableStep crc = (crc >>> 1) ^^^ (if crc.getLsbD 0 then 0xEDB88320 else 0) := by
  have odd : (crc &&& 1 = 1) ↔ crc.getLsbD 0 = true := by
    rw [show (1 : BitVec 32) = 1#32 from rfl, BitVec.and_one_eq_setWidth_ofBool_getLsbD]
    cases crc.getLsbD 0 <;> decide
  simp only [crc32TableStep, odd]

theorem crc32TableStep_xor (x y : BitVec 32) :
    crc32TableStep (x ^^^ y) = crc32TableStep x ^^^ crc32TableStep y := by
  have chosen : ∀ a b : Bool, (if (a ^^ b) = true then 0xEDB88320 else 0 : BitVec 32) =
      (if a then 0xEDB88320 else 0) ^^^ (if b then 0xEDB88320 else 0) := by decide
  simp only [crc32TableStep_eq, BitVec.getLsbD_xor, BitVec.ushiftRight_xor_distrib, chosen]
  ac_rfl

theorem crc32Table_xor (x y : BitVec 32) : crc32Table (x ^^^ y) = crc32Table x ^^^ crc32Table y := by
  have steps : ∀ n, crc32TableStep^[n] (x ^^^ y) = crc32TableStep^[n] x ^^^ crc32TableStep^[n] y := by
    intro n
    induction n with
    | zero => rfl
    | succ n ih => simp only [Function.iterate_succ_apply', ih, crc32TableStep_xor]
  exact steps 8

def crc32Word (i : BitVec 8) : BitVec 32 := crc32Table (i.setWidth 32)

theorem crc32Word_distinguishing : Distinguishing crc32Word := by
  have zero : ∀ b : Byte, crc32Word (.ofFin b) >>> 24 = 0 → b = 0 := by decide +kernel
  intro i j same
  have linear : crc32Word (i ^^^ j) = crc32Word i ^^^ crc32Word j := by
    rw [crc32Word, BitVec.setWidth_xor, crc32Table_xor]
    rfl
  have top : crc32Word (i ^^^ j) >>> 24 = 0 := by
    rw [linear, BitVec.ushiftRight_xor_distrib]
    exact BitVec.xor_eq_zero_iff.mpr same
  have none : i ^^^ j = 0#8 := congrArg BitVec.ofFin (zero (i ^^^ j).toFin top)
  exact BitVec.xor_eq_zero_iff.mp none

def octet (b : Byte) : BitVec 8 := .ofFin b

theorem octet_injective : Function.Injective octet := by
  intro b b' same
  exact congrArg BitVec.toFin same

theorem and_0xFF (x : BitVec 32) : x &&& 0xFF = (x.setWidth 8).setWidth 32 := by
  apply BitVec.eq_of_toNat_eq
  have masked : x.toNat &&& 255 = x.toNat % 2 ^ 8 := Nat.and_two_pow_sub_one_eq_mod x.toNat 8
  have small : x.toNat % 2 ^ 8 < 2 ^ 32 := (Nat.mod_lt _ (by decide)).trans (by decide)
  rw [BitVec.toNat_and, BitVec.toNat_setWidth, BitVec.toNat_setWidth, Nat.mod_eq_of_lt small]
  exact masked

theorem crc32Update_eq (crc : BitVec 32) (b : Byte) : crc32Update crc b = tableUpdate crc32Word crc (octet b) := by
  have narrowed : (BitVec.ofNat 32 b.val).setWidth 8 = octet b := by
    apply BitVec.eq_of_toNat_eq
    simp [octet]
  rw [crc32Update, tableUpdate, crc32Word, and_0xFF, BitVec.setWidth_xor, narrowed]

theorem computeCRC32_eq (data : Bytes) :
    computeCRC32 data = (data.map octet).foldl (tableUpdate crc32Word) 0xFFFFFFFF ^^^ 0xFFFFFFFF := by
  have step : crc32Update = fun crc b => tableUpdate crc32Word crc (octet b) := by
    funext crc b
    exact crc32Update_eq crc b
  rw [computeCRC32, step, List.foldl_map]

structure Burst (p p' : Bytes) : Prop where
  sameLength : p'.length = p.length
  differ : p' ≠ p
  within : ∃ start, ∀ i, p'[i]? ≠ p[i]? → start ≤ i ∧ i < start + 4

namespace Burst

theorem split {p p' : Bytes} (burst : Burst p p') : ∃ front window window' back : Bytes,
    p = front ++ (window ++ back) ∧ p' = front ++ (window' ++ back) ∧
      window.length = window'.length ∧ window.length ≤ 4 := by
  obtain ⟨start, within⟩ := burst.within
  have same : ∀ i, i < start ∨ start + 4 ≤ i → p'[i]? = p[i]? := by
    intro i outside
    by_contra differ
    have := within i differ
    omega
  have front : p'.take start = p.take start := by
    apply List.ext_getElem?
    intro i
    rw [List.getElem?_take, List.getElem?_take]
    split
    next before => exact same i (.inl before)
    next => rfl
  have back : (p'.drop start).drop 4 = (p.drop start).drop 4 := by
    apply List.ext_getElem?
    intro i
    simp only [List.getElem?_drop]
    exact same _ (.inr (by omega))
  refine ⟨p.take start, (p.drop start).take 4, (p'.drop start).take 4, (p.drop start).drop 4, ?_, ?_, ?_, ?_⟩
  · rw [List.take_append_drop, List.take_append_drop]
  · rw [← front, ← back, List.take_append_drop, List.take_append_drop]
  · simp [burst.sameLength]
  · exact List.length_take_le _ _

theorem computeCRC32_ne {p p' : Bytes} (burst : Burst p p') : computeCRC32 p' ≠ computeCRC32 p := by
  obtain ⟨front, window, window', back, rfl, rfl, lengths, short⟩ := burst.split
  intro same
  rw [computeCRC32_eq, computeCRC32_eq, BitVec.xor_left_inj] at same
  simp only [List.map_append, List.foldl_append] at same
  have atWindow := foldl_tableUpdate_injective crc32Word_distinguishing _ same
  have octets := foldl_tableUpdate_window crc32Word_distinguishing (by simp [lengths]) (by simp; omega) atWindow
  have windows : window' = window := List.map_injective_iff.mpr octet_injective octets
  exact burst.differ (by rw [windows])

end Burst

structure ValidRecord where
  payload : Bytes
  entry : WALEntry
  short : payload.length ≤ kMaxPayload
  parses : deserializeEntry payload = .ok entry

namespace ValidRecord

def bytes (record : ValidRecord) : Bytes := recordHeader record.payload ++ record.payload

theorem fits (record : ValidRecord) : record.payload.length < 2 ^ 32 := by
  have := record.short
  simp [kMaxPayload] at this
  omega

theorem readRecord_bytes (record : ValidRecord) (back : Bytes) :
    readRecord (some kMaxPayload) (record.bytes ++ back) = some (record.entry, record.bytes.length) := by
  rw [bytes, List.append_assoc, readRecord_header _ back record.fits (by simpa using record.short) rfl, if_pos rfl,
    record.parses, List.length_append, recordHeader_length]
  rfl

theorem scan_bytes (records : List ValidRecord) (rest : Bytes) :
    scan (some kMaxPayload) (records.flatMap bytes ++ rest) =
      records.map entry ++ scan (some kMaxPayload) rest := by
  induction records with
  | nil => rfl
  | cons record records ih =>
    rw [List.flatMap_cons, List.append_assoc, scan_cons (record.readRecord_bytes _), List.drop_left, ih]
    rfl

end ValidRecord

theorem burst_detected (p p' : Bytes) (burst : Burst p p') :
    computeCRC32 p' ≠ computeCRC32 p ∧
      ∀ (older : List ValidRecord) (damaged : ValidRecord) (newer : Bytes), damaged.payload = p →
        WAL.readAll (older.flatMap ValidRecord.bytes ++ (recordHeader p ++ (p' ++ newer))) =
          older.map ValidRecord.entry := by
  refine ⟨burst.computeCRC32_ne, ?_⟩
  rintro older damaged newer rfl
  have stop : readRecord (some kMaxPayload) (recordHeader damaged.payload ++ (p' ++ newer)) = none := by
    rw [readRecord_header _ newer damaged.fits (by simpa using damaged.short) burst.sameLength,
      if_neg burst.computeCRC32_ne]
  rw [WAL.readAll, ValidRecord.scan_bytes, scan_stop stop, List.append_nil]

theorem burst_detected_key_byte :
    let damaged := serializePayload ⟨2, .kDelete, [98], []⟩
    let older := serializeEntry ⟨1, .kPut, [97], [120]⟩
    WAL.readAll (older ++ (recordHeader (serializePayload ⟨2, .kDelete, [97], []⟩) ++ (damaged ++ []))) =
      [⟨1, .kPut, [97], [120]⟩] := by
  have burst : Burst (serializePayload ⟨2, .kDelete, [97], []⟩) (serializePayload ⟨2, .kDelete, [98], []⟩) := by
    refine ⟨by decide, by decide, 13, ?_⟩
    intro i differ
    by_contra outside
    rcases lt_or_ge i 14 with inside | past
    · have same : ∀ j < 13, (serializePayload ⟨2, .kDelete, [98], []⟩)[j]? =
          (serializePayload ⟨2, .kDelete, [97], []⟩)[j]? := by decide
      exact differ (same i (by omega))
    · rw [List.getElem?_eq_none (by exact past), List.getElem?_eq_none (by exact past)] at differ
      exact differ rfl
  exact (burst_detected _ _ burst).2 [⟨serializePayload ⟨1, .kPut, [97], [120]⟩, _, by decide, rfl⟩]
    ⟨serializePayload ⟨2, .kDelete, [97], []⟩, ⟨2, .kDelete, [97], []⟩, by decide, rfl⟩ [] rfl

end VectorDb.Storage
