import Memstash.Snapshot.Format

/-! What a snapshot writes reads back, and no strict part of it reads as the whole. -/

namespace Memstash

open Streams ByteNumbers Machine

variable {K V ε : Type}

namespace SnapshotError

/-- The errors that wrap `ErrBadSnapshot`. -/
def IsBad (e : SnapshotError ε) : Prop := ∃ why, e = .badSnapshot why

end SnapshotError

/-- The word of a moment is what the eight bytes it is written in stand for. -/
theorem savedAt_bytes (savedAt : Int) :
    int64 (ofBigEndian (bigEndian 8 (savedAt % 2 ^ 64).toNat)) = int64 savedAt := by
  rw [ofBigEndian_bigEndian]
  have within : (savedAt % 2 ^ 64).toNat % 256 ^ 8 = (savedAt % 2 ^ 64).toNat :=
    Nat.mod_eq_of_lt (by omega)
  rw [within, Int.toNat_of_nonneg (by omega)]
  exact Int.emod_bmod savedAt (2 ^ 64)

/-- The header reads back as the moment of saving. -/
theorem reads_header (savedAt : Int) :
    Reads (SnapshotError.IsBad (ε := ε)) readHeader (snapshotHeader savedAt) (int64 savedAt) := by
  have size : snapshotHeaderSize = (snapshotHeader savedAt).length := by
    simp [snapshotHeaderSize, snapshotHeader]
  have taken : Reads (SnapshotError.IsBad (ε := ε))
      ((readFull snapshotHeaderSize).wrap fun e => .badSnapshot (.header e)) (snapshotHeader savedAt)
      (snapshotHeader savedAt) := by
    rw [size]
    exact (reads_readFull (snapshotHeader savedAt)).wrap fun e _ => ⟨_, rfl⟩
  rw [← List.append_nil (snapshotHeader savedAt)]
  apply taken.bind
  -- The magic and the version are the ones just written.
  have magic : (snapshotHeader savedAt).take snapshotMagic.length = snapshotMagic := by
    rw [snapshotHeader, List.append_assoc, List.take_left]
  have version : (snapshotHeader savedAt).getD snapshotMagic.length 0 = snapshotVersion := rfl
  have rest : (snapshotHeader savedAt).drop (snapshotMagic.length + 1)
      = bigEndian 8 (savedAt % 2 ^ 64).toNat := rfl
  rw [magic, version, rest, if_neg (not_not.mpr rfl), if_neg (not_not.mpr rfl), savedAt_bytes]
  exact Reads.pure (int64 savedAt)

theorem reads_chunk {payload : List UInt8} (small : payload.length ≤ maxSnapshotChunk) :
    Reads (SnapshotError.IsBad (ε := ε)) (readChunk payload.length) payload payload := by
  unfold readChunk
  rw [if_neg (not_lt.mpr small)]
  exact (reads_readFull payload).wrap fun e _ => ⟨_, rfl⟩

theorem reads_number {n : Nat} (fits : n < 2 ^ 64) (why : Streams.ReadError → BadSnapshot) :
    Reads (SnapshotError.IsBad (ε := ε)) (readUvarint.wrap fun e => .badSnapshot (why e)) (putUvarint n) n :=
  (reads_uvarint fits).wrap fun e _ => ⟨why e, rfl⟩

theorem reads_end : Reads (SnapshotError.IsBad (ε := ε)) readRecord (writeChunk 0 []) none := by
  apply (reads_number (n := 0) (by norm_num) .keyLength).bind
  rw [if_pos rfl]
  exact Reads.pure none

/-- The bytes of a record. -/
def RawRecord.bytes (raw : RawRecord) : List UInt8 :=
  writeChunk (raw.keyBytes.length + 1) raw.keyBytes ++ writeChunk raw.valueBytes.length raw.valueBytes
    ++ writeChunk raw.lifeSeconds []

/-- The lengths and the lifetime of a record are within their bounds. -/
structure RawRecord.Bounded (raw : RawRecord) : Prop where
  key : raw.keyBytes.length ≤ maxSnapshotChunk
  value : raw.valueBytes.length ≤ maxSnapshotChunk
  life : raw.lifeSeconds < 2 ^ 64

/-- A record reads back. -/
theorem reads_record {raw : RawRecord} (bounded : raw.Bounded) :
    Reads (SnapshotError.IsBad (ε := ε)) readRecord raw.bytes (some raw) := by
  obtain ⟨smallKey, smallValue, life⟩ := bounded
  unfold maxSnapshotChunk at smallKey smallValue
  -- The fields one by one, in the order they are written.
  have keyLength := reads_number (ε := ε) (n := raw.keyBytes.length + 1) (by omega) .keyLength
  have key := reads_chunk (ε := ε) smallKey
  have valueLength := reads_number (ε := ε) (n := raw.valueBytes.length) (by omega) .valueLength
  have value := reads_chunk (ε := ε) smallValue
  have lifetime := reads_number (ε := ε) life .lifetime
  have inOrder : raw.bytes = putUvarint (raw.keyBytes.length + 1) ++ (raw.keyBytes ++
      (putUvarint raw.valueBytes.length ++ (raw.valueBytes ++ putUvarint raw.lifeSeconds))) := by
    simp only [RawRecord.bytes, writeChunk, List.append_nil, List.append_assoc]
  rw [inOrder]
  apply keyLength.bind
  rw [if_neg (Nat.succ_ne_zero _), Nat.add_sub_cancel]
  apply key.bind
  apply valueLength.bind
  apply value.bind
  exact lifetime.map fun lifeSeconds => some (RawRecord.mk raw.keyBytes raw.valueBytes lifeSeconds)

end Memstash
