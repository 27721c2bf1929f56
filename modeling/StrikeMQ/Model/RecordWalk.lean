import StrikeMQ.Model.KafkaDecoder

/-!
# Where the decoder goes

`KafkaDecoder::decode_record_batch` once more, with a note of the reader's position after each of
its operations. A record is what the source keeps of it, a pointer to its first byte and a size:
nothing is read through the pointer here. So this is the decoder of `KafkaDecoder` without the loads
of the records' bytes, which belong to whoever uses them.

The first to use them is `serialize_batch`, whose position is a `uint32_t`.
-/

set_option autoImplicit false

namespace StrikeMQ.Model

open StrikeMQ.Lib BinaryReader

/-- A reader whose positions are noted, the newest in front. -/
abbrev WalkM := MemReader (BinaryReader × List ℕ)

/-- One operation of the reader. -/
def WalkM.op {α : Type} (x : ReaderM α) : WalkM α :=
  MemReader.noted BinaryReader.pos x

/-- `stop`, the place behind the record, is not kept by the source.
SOURCE: core/types.h:45-63 -/
structure RecordSpan where
  timestamp : ℤ
  data : ℕ
  keyLength : ℕ
  valueOffset : ℕ
  valueLength : ℕ
  totalSize : ℕ
  stop : ℕ
  deriving DecidableEq, Repr

namespace KafkaDecoder

open WalkM (op)

/-- SOURCE: protocol/kafka_codec.cpp:57-58, 60 -/
def walkPresent (n : ℤ) : WalkM Unit :=
  if n ≥ 0 then op (skip n) else pure ()

/-- SOURCE: protocol/kafka_codec.cpp:60 -/
def walkRecordHeader : WalkM Unit := do
  let hk ← op readSignedVarint
  op (skip hk)
  let hv ← op readSignedVarint
  walkPresent hv

/-- SOURCE: protocol/kafka_codec.cpp:53-64 -/
def walkRecord (firstTimestamp : ℤ) : WalkM RecordSpan := do
  let start ← op current
  let _ ← op readSignedVarint
  let _ ← op readInt8
  let td ← op readSignedVarint
  let _ ← op readSignedVarint
  let kl ← op readSignedVarint
  walkPresent kl
  let vl ← op readSignedVarint
  walkPresent vl
  let nh ← op readSignedVarint
  let _ ← MemReader.times walkRecordHeader nh.toNat
  let stop ← op current
  return {
    timestamp := firstTimestamp + td
    data := start
    keyLength := kl.toNat
    valueOffset := if vl ≥ 0 then kl.toNat else 0
    valueLength := vl.toNat
    totalSize := toUInt32 ((stop : ℤ) - start)
    stop := stop }

/-- The batch without its records, and these.
SOURCE: protocol/kafka_codec.cpp:39-68 -/
def walkRecordBatch : WalkM (RecordBatch × List RecordSpan) := do
  let baseOffset ← op readInt64
  let _ ← op readInt32
  let partitionLeaderEpoch ← op readInt32
  let magic ← op readInt8
  let b : RecordBatch :=
    { baseOffset := baseOffset, partitionLeaderEpoch := partitionLeaderEpoch, magic := magic }
  if magic ≠ 2 then return (b, [])
  else
    let crc ← op readInt32
    let attributes ← op readInt16
    let lastOffD ← op readInt32
    let firstTimestamp ← op readInt64
    let maxTimestamp ← op readInt64
    let producerId ← op readInt64
    let producerEpoch ← op readInt16
    let baseSequence ← op readInt32
    let nr ← op readInt32
    let spans ← MemReader.times (walkRecord firstTimestamp) nr.toNat
    return ({ b with
      crc := crc
      attributes := attributes
      firstTimestamp := firstTimestamp
      maxTimestamp := maxTimestamp
      producerId := producerId
      producerEpoch := producerEpoch
      baseSequence := baseSequence
      lastOffset := baseOffset + lastOffD }, spans)

end KafkaDecoder

namespace RecordSpan

/-- The record with the bytes it points at. -/
def load (m : Memory) (s : RecordSpan) : Option Record :=
  (loadBytes m s.data s.totalSize).bind fun data =>
    if h : data.length < 2 ^ 32 then
      some {
        timestamp := s.timestamp
        data := some data
        keyLength := s.keyLength
        valueOffset := s.valueOffset
        valueLength := s.valueLength
        size_lt := h }
    else none

/-- The position of `serialize_batch` behind a record.
SOURCE: storage/partition_log.h:237-242 -/
def posBehind (cap pos : ℕ) (s : RecordSpan) : ℕ :=
  if 0 < s.totalSize ∧ toUInt32 (pos + s.totalSize : ℕ) < cap then
    toUInt32 (pos + s.totalSize : ℕ)
  else pos

end RecordSpan

end StrikeMQ.Model
