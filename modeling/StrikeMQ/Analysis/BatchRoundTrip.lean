import StrikeMQ.Analysis.BatchSerialization
import StrikeMQ.Analysis.RecordDecoding

/-!
# A batch serialized and decoded

The serializer of the log writes the fields of a batch with byte-order helpers of its own, and the
records as they are; the decoder of the protocol reads the fields with its own, and finds the
records again by walking through each of them. What the serializer writes for a batch that fits its
buffer is the layout that the decoder reads, field by field, so the batch comes back. The CRC does
not: the serializer writes a zero for it.
-/

set_option autoImplicit false

namespace StrikeMQ.Analysis.BatchRoundTrip

open StrikeMQ.Lib StrikeMQ.Model StrikeMQ.Model.KafkaDecoder StrikeMQ.Model.PartitionLog
open StrikeMQ.Interface StrikeMQ.Analysis.WireReading StrikeMQ.Analysis.RecordDecoding
open StrikeMQ.Analysis.BatchSerialization

/-- The header fields are values of their C++ types. -/
structure TypedHeader (b : RecordBatch) : Prop where
  baseOffset : Fits 8 b.baseOffset
  partitionLeaderEpoch : Fits 4 b.partitionLeaderEpoch
  attributes : Fits 2 b.attributes
  firstTimestamp : Fits 8 b.firstTimestamp
  maxTimestamp : Fits 8 b.maxTimestamp
  producerId : Fits 8 b.producerId
  producerEpoch : Fits 2 b.producerEpoch
  baseSequence : Fits 4 b.baseSequence

/-- Two batches have the same fields, the CRC apart, and the same byte ranges as records. -/
structure SameBatch (b b' : RecordBatch) : Prop where
  baseOffset : b'.baseOffset = b.baseOffset
  lastOffset : b'.lastOffset = b.lastOffset
  partitionLeaderEpoch : b'.partitionLeaderEpoch = b.partitionLeaderEpoch
  magic : b'.magic = b.magic
  attributes : b'.attributes = b.attributes
  firstTimestamp : b'.firstTimestamp = b.firstTimestamp
  maxTimestamp : b'.maxTimestamp = b.maxTimestamp
  producerId : b'.producerId = b.producerId
  producerEpoch : b'.producerEpoch = b.producerEpoch
  baseSequence : b'.baseSequence = b.baseSequence
  records : b'.records.map Record.data = b.records.map Record.data

section Layout

variable {b : RecordBatch} {ls : List RecordLayout}
  (hls : b.records.map Record.data = ls.map fun l => some l.bytes)

include hls

/-- INTERNAL: **what is serialized is laid out field by field.** -/
theorem exists_serialized_layout (htypes : TypedHeader b) (hmagic : b.magic = 2)
    (hsize : b.serializedSize < 65536) :
    ∃ d : BatchLayout, serializeBatch b appendBufferSize = some d.bytes ∧ d.records = ls ∧
      d.baseOffset.val = b.baseOffset ∧ d.partitionLeaderEpoch.val = b.partitionLeaderEpoch ∧
      d.attributes.val = b.attributes ∧ d.lastOffsetDelta.val = b.records.length - 1 ∧
      d.firstTimestamp.val = b.firstTimestamp ∧ d.maxTimestamp.val = b.maxTimestamp ∧
      d.producerId.val = b.producerId ∧ d.producerEpoch.val = b.producerEpoch ∧
      d.baseSequence.val = b.baseSequence := by
  have hbytes := exists_bytes_of_data hls RecordLayout.bytes_ne_nil
  have hcount := length_le_sum_totalSize fun r hr => (hbytes r hr).2
  have hsum := length_flatten_raw b.records
  have hlength := (length_of_data hls).symm
  rw [flatten_raw_of_data hls] at hsum
  unfold RecordBatch.serializedSize at hsize
  have hfields : ∀ n, 4 + (1 + (4 + (2 + (4 + (8 + (8 + (8 + (2 + (4 + (4 + n)))))))))) = 49 + n := by
    intro n
    omega
  have hn : toInt32 b.records.length = b.records.length :=
    toInt32_of_fits (by omega) (by omega)
  refine ⟨{
    baseOffset := ⟨b.baseOffset, htypes.baseOffset⟩
    batchLength := ⟨(49 + (ls.flatMap RecordLayout.bytes).length : ℕ), fits_four_of_lt (by omega)⟩
    partitionLeaderEpoch := ⟨b.partitionLeaderEpoch, htypes.partitionLeaderEpoch⟩
    crc := ⟨0, by decide⟩
    attributes := ⟨b.attributes, htypes.attributes⟩
    lastOffsetDelta := ⟨b.records.length - 1, fits_four_of_bounds (by omega) (by omega)⟩
    firstTimestamp := ⟨b.firstTimestamp, htypes.firstTimestamp⟩
    maxTimestamp := ⟨b.maxTimestamp, htypes.maxTimestamp⟩
    producerId := ⟨b.producerId, htypes.producerId⟩
    producerEpoch := ⟨b.producerEpoch, htypes.producerEpoch⟩
    baseSequence := ⟨b.baseSequence, htypes.baseSequence⟩
    recordCount := ⟨b.records.length, fits_four_of_lt (by omega)⟩
    records := ls
    length_records := hlength.trans (Int.toNat_natCast _).symm },
    ?_, rfl, rfl, rfl, rfl, rfl, rfl, rfl, rfl, rfl, rfl⟩
  rw [serializeBatch_whole hbytes hsize, flatten_raw_of_data hls, serializeHeader, hn, hmagic]
  simp only [List.append_assoc]
  rw [patchBatchLength_append _ (length_beInt 8 _) (length_beInt 4 0)]
  simp only [BatchLayout.bytes, List.append_assoc, List.length_append, length_beInt]
  rw [hfields]

end Layout

/-- PROPERTY: **serializing a batch and decoding it gives the batch back.** For every batch of
magic 2 with the last offset that its number of records gives it, whatever the other fields, whose
records are laid out field by field and stay below the buffer with the header: the decoder reads
exactly what the serializer wrote, and finds every field but the CRC, and the records as the same
byte ranges in the same order.
SOURCE: storage/partition_log.h:206-250, protocol/kafka_codec.cpp:39-68, core/types.h:65-85 -/
theorem batch_round_trips (b : RecordBatch) (hmagic : b.magic = 2)
    (hlast : b.lastOffset = b.baseOffset + b.records.length - 1) (htypes : TypedHeader b)
    (hrecords : ∀ r ∈ b.records, ∃ l : RecordLayout, r.data = some l.bytes)
    (hsize : b.serializedSize < 65536) :
    ∃ out, serializeBatch b appendBufferSize = some out ∧
      ∀ (m : Memory) (a : ℕ), m.HoldsAt a out →
        ∃ b', decodeRecordBatch.run m { data := a, length := out.length } =
            some (b', { data := a, length := out.length, pos := out.length }) ∧
          SameBatch b b' := by
  obtain ⟨ls, hforall⟩ := exists_forall₂ hrecords
  have hls : b.records.map Record.data = ls.map fun l => some l.bytes :=
    (map_eq_of_forall₂ (hforall.imp fun _ _ h => h.symm)).symm
  obtain ⟨d, hout, hd, hbase, hepoch, hattributes, hdelta, hfirst, hmax, hproducer,
    hproducerEpoch, hsequence⟩ := exists_serialized_layout hls htypes hmagic hsize
  refine ⟨d.bytes, hout, fun m a hbytes => ?_⟩
  have hinside := hbytes.inside
  have hshort : ∀ r ∈ d.records, r.bytes.length < 2 ^ 32 := by
    intro r hr
    have hle := length_le_of_mem RecordLayout.bytes (hd ▸ hr)
    have hsum := length_flatten_raw b.records
    rw [flatten_raw_of_data hls] at hsum
    unfold RecordBatch.serializedSize at hsize
    omega
  obtain ⟨b', hb', hreads⟩ := exists_reads_layout (m := m) hshort
  refine ⟨b', ?_, ?_⟩
  · rw [hreads a hbytes { data := a, length := d.bytes.length } rfl, Nat.zero_add]
  · refine ⟨hb'.baseOffset.trans hbase, ?_, hb'.partitionLeaderEpoch.trans hepoch,
      hb'.magic.trans hmagic.symm, hb'.attributes.trans hattributes,
      hb'.firstTimestamp.trans hfirst, hb'.maxTimestamp.trans hmax,
      hb'.producerId.trans hproducer, hb'.producerEpoch.trans hproducerEpoch,
      hb'.baseSequence.trans hsequence, ?_⟩
    · rw [hb'.lastOffset, hbase, hdelta, hlast]
      omega
    · rw [hls, ← hd]
      refine map_eq_of_forall₂ (hb'.records.imp ?_)
      rintro l _ ⟨h, rfl⟩
      rfl

/-- A record with a key, a value and a header without a value. -/
def keyedRecord : WireRecord where
  key := some (ascii "k")
  value := some (ascii "v")
  headers := [(ascii "h", none)]

/-- A batch of that record twice, as it is numbered from offset 7 on. -/
def keyedBatch : RecordBatch where
  baseOffset := 7
  lastOffset := 8
  partitionLeaderEpoch := -1
  firstTimestamp := 1700000000000
  records := [{ data := some keyedRecord.bytes, size_lt := by decide },
    { data := some keyedRecord.bytes, size_lt := by decide }]

/-- The batch comes back. -/
theorem batch_round_trips_keyed :
    ∃ out, serializeBatch keyedBatch appendBufferSize = some out ∧
      ∀ (m : Memory) (a : ℕ), m.HoldsAt a out →
        ∃ b', decodeRecordBatch.run m { data := a, length := out.length } =
            some (b', { data := a, length := out.length, pos := out.length }) ∧
          SameBatch keyedBatch b' := by
  have htypes : TypedHeader keyedBatch :=
    ⟨by decide, by decide, by decide, by decide, by decide, by decide, by decide, by decide⟩
  refine batch_round_trips keyedBatch rfl (by decide) htypes ?_ (by decide)
  intro r hr
  obtain ⟨l, hl⟩ := exists_layout (r := keyedRecord) (by decide) (by decide)
  refine ⟨l, ?_⟩
  rw [hl]
  rcases List.mem_cons.mp hr with rfl | hr
  · rfl
  · rw [List.mem_singleton.mp hr]

end StrikeMQ.Analysis.BatchRoundTrip
