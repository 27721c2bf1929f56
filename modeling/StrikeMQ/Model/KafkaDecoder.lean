import StrikeMQ.Lib.MemReader
import StrikeMQ.Model.Types

/-!
# Decoding Kafka requests

`BinaryReader` and `KafkaDecoder` of `protocol/kafka_codec.h`. The reader checks nothing: it
loads whatever the memory holds at `data_ + pos_` and moves on, so a decoder is a program
over the memory around the frame, in which addresses are distances from the frame's first
byte and wrap as pointers do. It has no outcome where the language defines none: a load from
unmapped memory, a shift by the width of the word or more. A `string_view` or a `span` is an
address and a size; its bytes are loaded where the source copies them. A record of a decoded batch
points into the frame's memory, which does not change before the handler returns: the model loads
the record's bytes where the source sets its `data` pointer.
-/

set_option autoImplicit false

namespace StrikeMQ.Model

open StrikeMQ.Lib

/-- SOURCE: protocol/kafka_codec.h:15-19 -/
inductive ApiKey where
  | produce
  | fetch
  | listOffsets
  | metadata
  | offsetCommit
  | offsetFetch
  | findCoordinator
  | joinGroup
  | heartbeat
  | leaveGroup
  | syncGroup
  | apiVersions
  | other (code : ℤ)
  deriving DecidableEq, Repr

/-- `static_cast<ApiKey>`; a code without an enumerator stays what it is. -/
def ApiKey.ofInt : ℤ → ApiKey
  | 0 => .produce
  | 1 => .fetch
  | 2 => .listOffsets
  | 3 => .metadata
  | 8 => .offsetCommit
  | 9 => .offsetFetch
  | 10 => .findCoordinator
  | 11 => .joinGroup
  | 12 => .heartbeat
  | 13 => .leaveGroup
  | 14 => .syncGroup
  | 18 => .apiVersions
  | code => .other code

/-- A `std::string_view` or a `std::span`; the default one is empty. -/
structure View where
  start : ℕ := 0
  size : ℕ := 0
  deriving DecidableEq, Repr

/-- SOURCE: protocol/kafka_codec.h:37-77 -/
structure BinaryReader where
  data : ℕ := 0
  length : ℕ
  pos : ℕ := 0
  deriving DecidableEq, Repr

abbrev ReaderM := MemReader BinaryReader

namespace BinaryReader

/-- The difference of two `size_t` values.
SOURCE: protocol/kafka_codec.h:41 -/
def remaining (r : BinaryReader) : ℕ :=
  toUInt64 ((r.length : ℤ) - r.pos)

/-- `data_ + pos_`. -/
def current : ReaderM ℕ := do
  let r ← MemReader.get
  return r.data + r.pos

/-- SOURCE: protocol/kafka_codec.h:73 -/
def skip (n : ℤ) : ReaderM Unit := do
  let r ← MemReader.get
  MemReader.set { r with pos := (r.pos + (n % addressSpace).toNat) % addressSpace }

/-- `memcpy` of the next `n` bytes. -/
def readRaw (n : ℕ) : ReaderM Bytes := do
  let at_ ← current
  let bs ← MemReader.load at_ n
  skip n
  return bs

/-- SOURCE: protocol/kafka_codec.h:43 -/
def readInt8 : ReaderM ℤ := do
  let bs ← readRaw 1
  return intOfBe bs

/-- SOURCE: protocol/kafka_codec.h:44 -/
def readInt16 : ReaderM ℤ := do
  let bs ← readRaw 2
  return intOfBe bs

/-- SOURCE: protocol/kafka_codec.h:45 -/
def readInt32 : ReaderM ℤ := do
  let bs ← readRaw 4
  return intOfBe bs

/-- SOURCE: protocol/kafka_codec.h:46 -/
def readInt64 : ReaderM ℤ := do
  let bs ← readRaw 8
  return intOfBe bs

/-- The view of the next `len` bytes; a negative length is the empty view. -/
def readView (len : ℤ) : ReaderM View := do
  if len < 0 then return {}
  else
    let at_ ← current
    skip len
    return ⟨at_, len.toNat⟩

/-- SOURCE: protocol/kafka_codec.h:48-53 -/
def readString : ReaderM View := do
  let len ← readInt16
  readView len

/-- SOURCE: protocol/kafka_codec.h:55-60 -/
def readBytes : ReaderM View := do
  let len ← readInt32
  readView len

/-- The bytes of a view, where the source copies them. -/
def copy (v : View) : ReaderM Bytes :=
  MemReader.load v.start v.size

/-- `std::string(r.read_string())`. -/
def readStdString : ReaderM Bytes := do
  let v ← readString
  copy v

/-- `n |= static_cast<uint32_t>(b & 0x7F) << shift` over the bytes of a varint. The language
leaves a shift by 32 or more undefined.
SOURCE: protocol/kafka_codec.h:63-69 -/
def varintBits : ℕ → Bytes → Option ℕ
  | _, [] => some 0
  | shift, b :: bs =>
    if shift < 32 then do
      let high ← varintBits (shift + 7) bs
      return toUInt32 ((b.toNat &&& 0x7F) <<< shift : ℕ) ||| high
    else none

/-- `(n >> 1) ^ -(n & 1)` on `uint32_t`, as an `int32_t`.
SOURCE: protocol/kafka_codec.h:70 -/
def unzigzag (n : ℕ) : ℤ :=
  toInt32 ((n >>> 1) ^^^ toUInt32 (-((n &&& 1 : ℕ) : ℤ)) : ℕ)

/-- SOURCE: protocol/kafka_codec.h:62-71 -/
def readSignedVarint : ReaderM ℤ := do
  let at_ ← current
  let bs ← MemReader.scan (fun b => b &&& 0x80 = 0) at_
  skip bs.length
  let n ← MemReader.ofOption (varintBits 0 bs)
  return unzigzag n

end BinaryReader

open BinaryReader

/-- SOURCE: protocol/kafka_codec.h:29-35 -/
structure RequestHeader where
  apiKey : ApiKey
  apiVersion : ℤ
  correlationId : ℤ
  clientId : View
  deriving DecidableEq, Repr

namespace KafkaDecoder

/-- SOURCE: protocol/kafka_codec.cpp:5-12 -/
def decodeHeader : ReaderM RequestHeader := do
  let apiKey ← readInt16
  let apiVersion ← readInt16
  let correlationId ← readInt32
  let clientId ← readString
  return ⟨ApiKey.ofInt apiKey, apiVersion, correlationId, clientId⟩

/-- One record header: its key length is not checked for a sign before it is skipped.
SOURCE: protocol/kafka_codec.cpp:60 -/
def skipRecordHeader : ReaderM Unit := do
  let hk ← readSignedVarint
  skip hk
  let hv ← readSignedVarint
  if hv ≥ 0 then skip hv

/-- SOURCE: protocol/kafka_codec.cpp:53-64 -/
def decodeRecord (firstTimestamp : ℤ) : ReaderM Record := do
  let start ← current
  let _ ← readSignedVarint
  let _ ← readInt8
  let td ← readSignedVarint
  let _ ← readSignedVarint
  let kl ← readSignedVarint
  if kl ≥ 0 then skip kl
  let vl ← readSignedVarint
  if vl ≥ 0 then skip vl
  let nh ← readSignedVarint
  let _ ← MemReader.times skipRecordHeader nh.toNat
  let stop ← current
  let totalSize := toUInt32 ((stop : ℤ) - start)
  let data ← MemReader.load start totalSize
  return {
    timestamp := firstTimestamp + td
    data := some (data.take totalSize)
    keyLength := kl.toNat
    valueOffset := if vl ≥ 0 then kl.toNat else 0
    valueLength := vl.toNat
    size_lt := by
      rw [Option.getD_some, List.length_take]
      exact lt_of_le_of_lt (min_le_left _ _) (toUInt32_lt _) }

/-- SOURCE: protocol/kafka_codec.cpp:39-68 -/
def decodeRecordBatch : ReaderM RecordBatch := do
  let baseOffset ← readInt64
  let _ ← readInt32
  let partitionLeaderEpoch ← readInt32
  let magic ← readInt8
  let b : RecordBatch :=
    { baseOffset := baseOffset, partitionLeaderEpoch := partitionLeaderEpoch, magic := magic }
  if magic ≠ 2 then return b
  else
    let crc ← readInt32
    let attributes ← readInt16
    let lastOffD ← readInt32
    let firstTimestamp ← readInt64
    let maxTimestamp ← readInt64
    let producerId ← readInt64
    let producerEpoch ← readInt16
    let baseSequence ← readInt32
    let nr ← readInt32
    let records ← MemReader.times (decodeRecord firstTimestamp) nr.toNat
    return { b with
      crc := crc
      attributes := attributes
      firstTimestamp := firstTimestamp
      maxTimestamp := maxTimestamp
      producerId := producerId
      producerEpoch := producerEpoch
      baseSequence := baseSequence
      records := records
      lastOffset := baseOffset + lastOffD }

/-- One partition of a Produce request: a reader of its own over the record bytes, if there
are any.
SOURCE: protocol/kafka_codec.cpp:25-33 -/
def decodeProducePartition (topic : View) : ReaderM (List RecordBatch) := do
  let pid ← readInt32
  let data ← readBytes
  if data.size = 0 then return []
  else
    let r ← MemReader.get
    MemReader.set { data := data.start, length := data.size }
    let batch ← decodeRecordBatch
    MemReader.set r
    let name ← copy topic
    return [{ batch with topicPartition := ⟨name, pid⟩ }]

/-- SOURCE: protocol/kafka_codec.cpp:14-37 -/
def decodeProduce (h : RequestHeader) : ReaderM ProduceRequest := do
  let clientId ← copy h.clientId
  if h.apiVersion ≥ 3 then
    let _ ← readString
  let acks ← readInt16
  let timeoutMs ← readInt32
  let nt ← readInt32
  let batches ← MemReader.times (do
    let topic ← readString
    let np ← readInt32
    let bs ← MemReader.times (decodeProducePartition topic) np.toNat
    return bs.flatten) nt.toNat
  return {
    correlationId := h.correlationId
    clientId := clientId
    acks := acks
    timeoutMs := timeoutMs
    batches := batches.flatten }

/-- The loop over topics and their partitions that the other decoders share: one copy of the
topic name, then each partition.
SOURCE: protocol/kafka_codec.cpp:78-92, 175-188, 197-207, 236-248 -/
def decodeByTopic {α : Type} (partition : Bytes → ReaderM α) : ReaderM (List α) := do
  let nt ← readInt32
  let parts ← MemReader.times (do
    let topic ← readStdString
    let np ← readInt32
    MemReader.times (partition topic) np.toNat) nt.toNat
  return parts.flatten

/-- SOURCE: protocol/kafka_codec.cpp:83-90 -/
def decodeFetchPartition (apiVersion : ℤ) (topic : Bytes) : ReaderM PartitionFetch := do
  let partition ← readInt32
  if apiVersion ≥ 9 then
    let _ ← readInt32
  let fetchOffset ← readInt64
  if apiVersion ≥ 5 then
    let _ ← readInt64
  let partitionMaxBytes ← readInt32
  return ⟨⟨topic, partition⟩, fetchOffset, partitionMaxBytes⟩

/-- SOURCE: protocol/kafka_codec.cpp:70-94 -/
def decodeFetch (h : RequestHeader) : ReaderM FetchRequest := do
  let _ ← readInt32
  let maxWaitMs ← readInt32
  let minBytes ← readInt32
  let maxBytes ← if h.apiVersion ≥ 3 then readInt32 else pure 52428800
  if h.apiVersion ≥ 4 then
    let _ ← readInt8
  let partitions ← decodeByTopic (decodeFetchPartition h.apiVersion)
  return {
    correlationId := h.correlationId
    maxWaitMs := maxWaitMs
    minBytes := minBytes
    maxBytes := maxBytes
    partitions := partitions }

/-- SOURCE: protocol/kafka_codec.cpp:98-105 -/
def decodeFindCoordinator (h : RequestHeader) : ReaderM FindCoordinatorRequest := do
  let groupId ← readStdString
  let coordinatorType ← if h.apiVersion ≥ 1 then readInt8 else pure 0
  return ⟨h.correlationId, h.apiVersion, groupId, coordinatorType⟩

/-- SOURCE: protocol/kafka_codec.cpp:119-123 -/
def decodeProtocol : ReaderM JoinGroupProtocol := do
  let name ← readStdString
  let bytes ← readBytes
  let metadata ← copy bytes
  return ⟨name, metadata⟩

/-- SOURCE: protocol/kafka_codec.cpp:107-126 -/
def decodeJoinGroup (h : RequestHeader) : ReaderM JoinGroupRequest := do
  let clientId ← copy h.clientId
  let groupId ← readStdString
  let sessionTimeoutMs ← readInt32
  let rebalanceTimeoutMs ← if h.apiVersion ≥ 1 then readInt32 else pure 300000
  let memberId ← readStdString
  let protocolType ← readStdString
  let np ← readInt32
  let protocols ← MemReader.times decodeProtocol np.toNat
  return {
    correlationId := h.correlationId
    apiVersion := h.apiVersion
    clientId := clientId
    groupId := groupId
    sessionTimeoutMs := sessionTimeoutMs
    rebalanceTimeoutMs := rebalanceTimeoutMs
    memberId := memberId
    protocolType := protocolType
    protocols := protocols }

/-- SOURCE: protocol/kafka_codec.cpp:137-141 -/
def decodeAssignment : ReaderM SyncGroupAssignment := do
  let memberId ← readStdString
  let bytes ← readBytes
  let assignment ← copy bytes
  return ⟨memberId, assignment⟩

/-- SOURCE: protocol/kafka_codec.cpp:128-144 -/
def decodeSyncGroup (h : RequestHeader) : ReaderM SyncGroupRequest := do
  let groupId ← readStdString
  let generationId ← readInt32
  let memberId ← readStdString
  let na ← readInt32
  let assignments ← MemReader.times decodeAssignment na.toNat
  return ⟨h.correlationId, h.apiVersion, groupId, generationId, memberId, assignments⟩

/-- SOURCE: protocol/kafka_codec.cpp:146-154 -/
def decodeHeartbeat (h : RequestHeader) : ReaderM HeartbeatRequest := do
  let groupId ← readStdString
  let generationId ← readInt32
  let memberId ← readStdString
  return ⟨h.correlationId, h.apiVersion, groupId, generationId, memberId⟩

/-- SOURCE: protocol/kafka_codec.cpp:156-163 -/
def decodeLeaveGroup (h : RequestHeader) : ReaderM LeaveGroupRequest := do
  let groupId ← readStdString
  let memberId ← readStdString
  return ⟨h.correlationId, h.apiVersion, groupId, memberId⟩

/-- SOURCE: protocol/kafka_codec.cpp:180-186 -/
def decodeCommitPartition (apiVersion : ℤ) (topic : Bytes) :
    ReaderM OffsetCommitPartitionRequest := do
  let partition ← readInt32
  let offset ← readInt64
  let timestamp ← if apiVersion = 1 then readInt64 else pure (-1)
  let metadata ← readStdString
  return ⟨⟨topic, partition⟩, offset, timestamp, metadata⟩

/-- SOURCE: protocol/kafka_codec.cpp:165-190 -/
def decodeOffsetCommit (h : RequestHeader) : ReaderM OffsetCommitRequest := do
  let groupId ← readStdString
  let (generationId, memberId) ←
    if h.apiVersion ≥ 1 then do
      let generationId ← readInt32
      let memberId ← readStdString
      pure (generationId, memberId)
    else pure (-1, [])
  let retentionTimeMs ← if h.apiVersion ≥ 2 then readInt64 else pure (-1)
  let partitions ← decodeByTopic (decodeCommitPartition h.apiVersion)
  return ⟨h.correlationId, h.apiVersion, groupId, generationId, memberId, retentionTimeMs,
    partitions⟩

/-- SOURCE: protocol/kafka_codec.cpp:202-205 -/
def decodeFetchOffsetPartition (topic : Bytes) : ReaderM OffsetFetchPartitionRequest := do
  let partition ← readInt32
  return ⟨⟨topic, partition⟩⟩

/-- SOURCE: protocol/kafka_codec.cpp:192-209 -/
def decodeOffsetFetch (h : RequestHeader) : ReaderM OffsetFetchRequest := do
  let groupId ← readStdString
  let partitions ← decodeByTopic decodeFetchOffsetPartition
  return ⟨h.correlationId, h.apiVersion, groupId, partitions⟩

/-- SOURCE: protocol/kafka_codec.cpp:241-246 -/
def decodeListOffsetsPartition (apiVersion : ℤ) (topic : Bytes) :
    ReaderM ListOffsetsPartition := do
  let partition ← readInt32
  let timestamp ← readInt64
  if apiVersion = 0 then
    let _ ← readInt32
  return ⟨⟨topic, partition⟩, timestamp⟩

/-- SOURCE: protocol/kafka_codec.cpp:230-250 -/
def decodeListOffsets (h : RequestHeader) : ReaderM ListOffsetsRequest := do
  let _ ← readInt32
  if h.apiVersion ≥ 2 then
    let _ ← readInt8
  let partitions ← decodeByTopic (decodeListOffsetsPartition h.apiVersion)
  return ⟨h.correlationId, h.apiVersion, partitions⟩

end KafkaDecoder

end StrikeMQ.Model
