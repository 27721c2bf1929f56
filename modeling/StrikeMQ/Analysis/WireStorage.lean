import StrikeMQ.Analysis.RecordDecoding
import StrikeMQ.Analysis.LogLayout

/-!
# What the log keeps of a batch that a producer sent

A batch is decoded into a struct and serialized again from it, field by field. For a batch that
is smaller than the serialization buffer, the result has every byte of the batch except for two
fields: the base offset, which is the log's to assign, and the CRC. The serializer writes a
zero where the CRC stands and never comes back to it.
-/

set_option autoImplicit false

namespace StrikeMQ.Analysis.WireStorage

open StrikeMQ.Lib StrikeMQ.Model StrikeMQ.Model.KafkaDecoder StrikeMQ.Interface
open StrikeMQ.Model.PartitionLog
open StrikeMQ.Analysis.WireReading StrikeMQ.Analysis.RecordDecoding
open StrikeMQ.Analysis.BatchSerialization StrikeMQ.Analysis.LogLayout

/-! ## The batch serialized again -/

/-- The bytes of a batch with its base offset replaced. -/
def rebased (w : WireBatch) (base : ℤ) : Bytes :=
  beInt 8 base ++ w.bytes.drop 8

/-- The batch as the serializer writes it. -/
def withoutCrc (w : WireBatch) : WireBatch :=
  { w with crc := wordOf 4 0 }

theorem rebased_eq (w : WireBatch) (base : ℤ) :
    rebased w base = beInt 8 base ++ (beInt 4 w.body.length ++ w.body) := by
  rw [rebased, WireBatch.bytes, wireBytes, List.drop_left' (length_beInt 8 _)]

theorem length_rebased (w : WireBatch) (base : ℤ) :
    (rebased w base).length = w.bytes.length := by
  rw [rebased_eq, WireBatch.bytes, wireBytes]
  simp only [List.length_append, length_beInt]

theorem length_body (w : WireBatch) :
    w.body.length = 49 + (w.records.flatMap WireRecord.bytes).length := by
  simp only [WireBatch.body, wireArray, List.length_append, length_beInt]
  omega

theorem length_body_withoutCrc (w : WireBatch) : (withoutCrc w).body.length = w.body.length := by
  rw [length_body, length_body]
  rfl

/-- INTERNAL: the other fields stand in both batches at the same places. -/
theorem rebased_withoutCrc_iff (w : WireBatch) (base : ℤ) :
    rebased (withoutCrc w) base = rebased w base ↔ w.crc.val = 0 := by
  constructor
  · intro h
    rw [rebased_eq, rebased_eq, length_body_withoutCrc] at h
    have hbody := List.append_cancel_left (List.append_cancel_left h)
    simp only [WireBatch.body, List.append_assoc] at hbody
    have hcrc := List.append_cancel_left (List.append_cancel_left hbody)
    have hword : beInt 4 0 = beInt 4 w.crc := List.append_inj_left hcrc rfl
    have hzero : Fits 4 0 := by decide
    rw [← intOfBe_beInt_of_fits w.crc.2, ← hword, intOfBe_beInt_of_fits hzero]
  · intro h
    have hsame : withoutCrc w = w := by
      unfold withoutCrc
      rw [← show w.crc = wordOf 4 0 from Subtype.ext (h.trans (wordOf_zero 4).symm)]
    rw [hsame]

section Decoded

variable {w : WireBatch} {b : RecordBatch} (hb : Decodes w b)

include hb

theorem exists_bytes_of_decodes : ∀ r ∈ b.records, r.data.isSome ∧ 0 < r.totalSize :=
  exists_bytes_of_data hb.records WireRecord.bytes_ne_nil

theorem serializedSize_of_decodes : b.serializedSize = w.bytes.length := by
  rw [RecordBatch.serializedSize, ← length_flatten_raw, flatten_raw_of_data hb.records,
    WireBatch.bytes, wireBytes, List.length_append, List.length_append, length_body, length_beInt, length_beInt]
  omega

/-- INTERNAL: **the header is written again field by field**, with zeros for the length and the
CRC. -/
theorem serializeHeader_of_decodes (base : ℤ) (hcount : w.records.length < 2 ^ 31)
    (hdelta : w.lastOffsetDelta.val = w.records.length - 1) :
    serializeHeader (assignOffsets base b) ++ w.records.flatMap WireRecord.bytes =
      beInt 8 base ++ (beInt 4 0 ++ (withoutCrc w).body) := by
  have hrecords : toInt32 (assignOffsets base b).records.length = w.records.length := by
    rw [length_assignOffsets, length_of_data hb.records, toInt32_of_fits (by omega) (by omega)]
  rw [serializeHeader, hrecords, ← hdelta]
  simp only [assignOffsets, hb.partitionLeaderEpoch, hb.magic, hb.attributes, hb.firstTimestamp,
    hb.maxTimestamp, hb.producerId, hb.producerEpoch, hb.baseSequence, withoutCrc, WireBatch.body,
    wireArray, wordOf_zero, List.append_assoc]

/-- INTERNAL: **all bytes but those of the CRC survive.** -/
theorem serializeBatch_of_decodes (base : ℤ)
    (hdelta : w.lastOffsetDelta.val = w.records.length - 1) (hsize : w.bytes.length < 65536) :
    serializeBatch (assignOffsets base b) appendBufferSize = some (rebased (withoutCrc w) base) := by
  have hcount : w.records.length < 2 ^ 31 := by
    have hle : w.records.length ≤ (w.records.flatMap WireRecord.bytes).length :=
      length_le_length_flatMap fun r _ => WireRecord.bytes_ne_nil r
    rw [WireBatch.bytes, wireBytes, List.length_append, List.length_append, length_body] at hsize
    omega
  rw [serializeBatch_of_serializedSize_lt base (exists_bytes_of_decodes hb)
    (by rw [serializedSize_of_decodes hb]; exact hsize), flatten_raw_of_data hb.records,
    serializeHeader_of_decodes hb base hcount hdelta,
    patchBatchLength_append _ (length_beInt 8 base) (length_beInt 4 0), rebased_eq]

end Decoded

/-! ## The bytes of the log -/

/-- All the bytes that the log holds, oldest first. -/
def contents (log : PartitionLog) : Bytes :=
  log.segments.flatMap LogSegment.data

/-- Bytes fit the log if the active segment has room for them, or a new segment would. -/
def Fitting (log : PartitionLog) (n : ℕ) : Prop :=
  log.activeSegment.size + n ≤ log.activeSegment.maxSize ∨ n ≤ log.segmentSize

theorem contents_eq (log : PartitionLog) :
    contents log = log.sealed.flatMap LogSegment.data ++ log.activeSegment.data := by
  rw [contents, segments, List.flatMap_append, List.flatMap_singleton]

/-- INTERNAL: bytes that fit go behind those of the log; others are dropped. -/
theorem contents_appendBytes (log : PartitionLog) (buf : Bytes) :
    (Fitting log buf.length → contents (log.appendBytes buf).1 = contents log ++ buf) ∧
      (¬Fitting log buf.length → contents (log.appendBytes buf).1 = contents log) := by
  unfold appendBytes Fitting
  rcases append_cases log.activeSegment buf with ⟨hfit, happ⟩ | ⟨hfull, happ⟩
  · have hpos : ¬((log.activeSegment.size : ℤ) < 0) := by omega
    simp only [happ, if_neg hpos, contents_eq, List.append_assoc]
    exact ⟨fun _ => trivial, fun h => absurd (Or.inl hfit) h⟩
  · simp only [happ, Int.reduceNeg, Int.reduceLT, if_true]
    rcases append_cases log.rollSegment.activeSegment buf with ⟨hroll, happ'⟩ | ⟨hroll, happ'⟩
    · have hle : buf.length ≤ log.segmentSize := by
        simpa only [rollSegment, LogSegment.size, List.length_nil, Nat.zero_add] using hroll
      simp only [happ']
      simp only [contents_eq, rollSegment, List.flatMap_append, List.flatMap_singleton,
        List.nil_append]
      exact ⟨fun _ => trivial, fun h => absurd (Or.inr hle) h⟩
    · have hlt : log.segmentSize < buf.length := by
        simpa only [rollSegment, LogSegment.size, List.length_nil, Nat.zero_add] using hroll
      simp only [happ']
      simp only [contents_eq, rollSegment, List.flatMap_append, List.flatMap_singleton,
        List.append_nil]
      exact ⟨fun h => by omega, fun _ => trivial⟩

theorem contents_commit (log : PartitionLog) (b : RecordBatch) (buf : Bytes) :
    contents (log.commit b buf) = contents (log.appendBytes buf).1 :=
  rfl

/-- INTERNAL: bytes are gained exactly when they fit. -/
theorem contents_commit_iff (log : PartitionLog) (b : RecordBatch) {buf bytes : Bytes}
    (hlen : buf.length = bytes.length) (hne : bytes ≠ []) :
    contents (log.commit b buf) = contents log ++ bytes ↔
      buf = bytes ∧ Fitting log bytes.length := by
  obtain ⟨hfit, hdropped⟩ := contents_appendBytes log buf
  rw [contents_commit, ← hlen]
  by_cases h : Fitting log buf.length
  · rw [hfit h, List.append_right_inj]
    exact ⟨fun heq => ⟨heq, h⟩, And.left⟩
  · rw [hdropped h]
    refine ⟨fun heq => absurd heq ?_, fun ⟨_, hfits⟩ => absurd hfits h⟩
    intro heq
    exact hne (List.self_eq_append_right.mp heq)

/-- PROPERTY: **the log stores what the producer sent, but for the CRC.** Every record batch of
the wire that is smaller than 65536 bytes is decoded to its end and appended under the log's
next offset. The log has then gained the bytes of the batch with the base offset replaced, and
no others, if and only if the CRC of the batch is zero and the batch fits a segment.
SOURCE: protocol/kafka_codec.cpp:39-68, storage/partition_log.h:117-134, 206-250 -/
theorem stores_what_was_sent_iff (log : PartitionLog) (w : WireBatch)
    (hdelta : w.lastOffsetDelta.val = w.records.length - 1) (hsize : w.bytes.length < 65536)
    (hshort : ∀ r ∈ w.records, r.Short) {m : Memory} {a : ℕ} (hbytes : m.HoldsAt a w.bytes) :
    ∃ b log', decodeRecordBatch.run m { data := a, length := w.bytes.length } =
        some (b, { data := a, length := w.bytes.length, pos := w.bytes.length }) ∧
      log.append b = some (log', log.nextOffset) ∧
      (contents log' = contents log ++ rebased w log.nextOffset ↔
        w.crc.val = 0 ∧ Fitting log w.bytes.length) := by
  obtain ⟨b, hb, hreads⟩ := exists_readsIf_decodeRecordBatch (m := m) (w := w) (by omega)
  have hser := serializeBatch_of_decodes hb log.nextOffset hdelta hsize
  have hrun := (hreads a).1 hshort hbytes { data := a, length := w.bytes.length } rfl
  refine ⟨b, _, ?_, append_eq_some_iff.mpr ⟨rfl, _, hser, rfl⟩, ?_⟩
  · rw [hrun, Nat.zero_add]
  · have hlen : (rebased (withoutCrc w) log.nextOffset).length =
        (rebased w log.nextOffset).length := by
      rw [rebased_eq, rebased_eq]
      simp only [List.length_append, length_beInt, length_body_withoutCrc]
    have hne : rebased w log.nextOffset ≠ [] :=
      List.append_ne_nil_of_left_ne_nil (List.ne_nil_of_length_pos (by rw [length_beInt]; omega)) _
    rw [contents_commit_iff log _ hlen hne, rebased_withoutCrc_iff, length_rebased]

/-- A batch of one record. -/
def oneRecord (crc : Word 4) : WireBatch where
  crc := crc
  records := [{ value := some (ascii "v") }]

/-- A batch whose CRC is zero and that fits is stored as it was sent. -/
theorem stores_what_was_sent_iff_zero_crc :
    let w := oneRecord ⟨0, by decide⟩
    let log := PartitionLog.create ⟨ascii "t", 0⟩ [] (2 ^ 30)
    ∃ b log', decodeRecordBatch.run (Memory.ofBytes w.bytes) { length := w.bytes.length } =
        some (b, { length := w.bytes.length, pos := w.bytes.length }) ∧
      log.append b = some (log', 0) ∧ (w.crc.val = 0 ∧ Fitting log w.bytes.length) ∧
      contents log' = contents log ++ rebased w 0 := by
  intro w log
  have hfits : w.crc.val = 0 ∧ Fitting log w.bytes.length := ⟨rfl, Or.inr (by decide)⟩
  obtain ⟨b, log', hdecode, happ, hiff⟩ := stores_what_was_sent_iff log w (by decide) (by decide)
    (by decide) (Memory.holdsAt_zero (by decide) (Memory.holds_ofBytes w.bytes))
  exact ⟨b, log', hdecode, happ, hfits, hiff.mpr hfits⟩

/-- What the log holds after a batch was decoded and appended to it. -/
def contentsAfter (log : PartitionLog) (w : WireBatch) : Option Bytes := do
  let (b, _) ← decodeRecordBatch.run (Memory.ofBytes w.bytes) { length := w.bytes.length }
  let (log', _) ← log.append b
  return contents log'

/-- The CRC of a batch does not survive, although the batch is well formed and fits. -/
theorem crc_is_stored_as_zero :
    let w := oneRecord ⟨1, by decide⟩
    let log := PartitionLog.create ⟨ascii "t", 0⟩ [] (2 ^ 30)
    (∃ bytes, contentsAfter log w = some bytes) ∧
      contentsAfter log w ≠ some (contents log ++ rebased w log.nextOffset) ∧
      contentsAfter log w =
        some (contents log ++ rebased (oneRecord ⟨0, by decide⟩) log.nextOffset) := by
  have hrun : contentsAfter (PartitionLog.create ⟨ascii "t", 0⟩ [] (2 ^ 30))
      (oneRecord ⟨1, by decide⟩) = some (rebased (oneRecord ⟨0, by decide⟩) 0) := by
    decide +kernel
  refine ⟨⟨_, hrun⟩, ?_, hrun⟩
  rw [hrun]
  decide +kernel

end StrikeMQ.Analysis.WireStorage
