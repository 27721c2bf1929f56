import StrikeMQ.Lib.Bytes

/-!
# The broker's data types

`core/types.h`, field by field. A `std::string` is its bytes. The fixed-width integers
are integers; what a conversion or an overflow does to them stands where the source
converts or overflows. A pointer together with the length read through it (a record's
`data` and `total_size`, a fetch result's `record_data` and `record_data_size`) is the
byte range it denotes, `none` being the null pointer.
-/

set_option autoImplicit false

namespace StrikeMQ.Model

open StrikeMQ.Lib

/-- SOURCE: core/types.h:12-18 -/
structure TopicPartition where
  topic : Bytes
  partition : ℤ
  deriving DecidableEq, Repr

/-- One record as the decoder or the REST producer leaves it. `data` is the raw range of
`total_size` bytes the record was read from; the length is a `uint32_t`.
SOURCE: core/types.h:45-63 -/
structure Record where
  offset : ℤ := -1
  timestamp : ℤ := 0
  timestampType : ℤ := 0
  data : Option Bytes := none
  keyOffset : ℕ := 0
  keyLength : ℕ := 0
  valueOffset : ℕ := 0
  valueLength : ℕ := 0
  size_lt : (data.getD []).length < 2 ^ 32 := by decide
  deriving DecidableEq

/-- `total_size`. -/
def Record.totalSize (r : Record) : ℕ :=
  (r.data.getD []).length

/-- The bytes `total_size` long at `data`. -/
def Record.raw (r : Record) : Bytes :=
  r.data.getD []

/-- SOURCE: core/types.h:56-59 -/
def Record.key (r : Record) : Bytes :=
  if r.keyLength = 0 then [] else slice r.raw r.keyOffset r.keyLength

/-- SOURCE: core/types.h:60-62 -/
def Record.value (r : Record) : Bytes :=
  slice r.raw r.valueOffset r.valueLength

/-- SOURCE: core/types.h:65-85 -/
structure RecordBatch where
  topicPartition : TopicPartition := ⟨[], 0⟩
  baseOffset : ℤ := -1
  lastOffset : ℤ := -1
  partitionLeaderEpoch : ℤ := 0
  magic : ℤ := 2
  crc : ℤ := 0
  attributes : ℤ := 0
  firstTimestamp : ℤ := 0
  maxTimestamp : ℤ := 0
  producerId : ℤ := -1
  producerEpoch : ℤ := -1
  baseSequence : ℤ := -1
  records : List Record := []
  deriving DecidableEq

/-- `61` plus the records' sizes, before the `uint32_t` truncation of the source's sum.
SOURCE: core/types.h:80-84 -/
def RecordBatch.serializedSize (b : RecordBatch) : ℕ :=
  61 + (b.records.map Record.totalSize).sum

/-! ## Requests and responses -/

/-- SOURCE: core/types.h:87-93 -/
structure ProduceRequest where
  correlationId : ℤ := 0
  clientId : Bytes := []
  acks : ℤ := -1
  timeoutMs : ℤ := 30000
  batches : List RecordBatch := []
  deriving DecidableEq

/-- SOURCE: core/types.h:95-101 -/
structure ProducePartitionResponse where
  partition : ℤ := 0
  errorCode : ℤ := 0
  baseOffset : ℤ := 0
  logAppendTime : ℤ := -1
  logStartOffset : ℤ := 0
  deriving DecidableEq, Repr

/-- SOURCE: core/types.h:103-109 -/
structure FetchPartitionResponse where
  tp : TopicPartition
  errorCode : ℤ := 0
  highWatermark : ℤ := -1
  recordData : Option Bytes := none
  deriving DecidableEq, Repr

/-- `record_data_size`. -/
def FetchPartitionResponse.recordDataSize (p : FetchPartitionResponse) : ℕ :=
  (p.recordData.getD []).length

/-- SOURCE: core/types.h:117-121 -/
structure PartitionFetch where
  tp : TopicPartition
  fetchOffset : ℤ := 0
  partitionMaxBytes : ℤ := 1048576
  deriving DecidableEq, Repr

/-- SOURCE: core/types.h:111-123 -/
structure FetchRequest where
  correlationId : ℤ := 0
  clientId : Bytes := []
  maxWaitMs : ℤ := 500
  minBytes : ℤ := 1
  maxBytes : ℤ := 52428800
  partitions : List PartitionFetch := []
  deriving DecidableEq, Repr

/-- SOURCE: core/types.h:128-131 -/
structure ListOffsetsPartition where
  tp : TopicPartition
  timestamp : ℤ := -1
  deriving DecidableEq, Repr

/-- SOURCE: core/types.h:125-133 -/
structure ListOffsetsRequest where
  correlationId : ℤ := 0
  apiVersion : ℤ := 0
  partitions : List ListOffsetsPartition := []
  deriving DecidableEq, Repr

/-- SOURCE: core/types.h:135-140 -/
structure ListOffsetsPartitionResponse where
  tp : TopicPartition
  errorCode : ℤ := 0
  timestamp : ℤ := -1
  offset : ℤ := 0
  deriving DecidableEq, Repr

/-- SOURCE: core/types.h:144-149 -/
structure FindCoordinatorRequest where
  correlationId : ℤ := 0
  apiVersion : ℤ := 0
  groupId : Bytes := []
  coordinatorType : ℤ := 0
  deriving DecidableEq, Repr

/-- SOURCE: core/types.h:151-154 -/
structure JoinGroupProtocol where
  name : Bytes
  metadata : Bytes
  deriving DecidableEq, Repr

/-- SOURCE: core/types.h:156-166 -/
structure JoinGroupRequest where
  correlationId : ℤ := 0
  apiVersion : ℤ := 0
  clientId : Bytes := []
  groupId : Bytes := []
  sessionTimeoutMs : ℤ := 10000
  rebalanceTimeoutMs : ℤ := 300000
  memberId : Bytes := []
  protocolType : Bytes := []
  protocols : List JoinGroupProtocol := []
  deriving DecidableEq, Repr

/-- SOURCE: core/types.h:168-171 -/
structure JoinGroupMember where
  memberId : Bytes
  metadata : Bytes := []
  deriving DecidableEq, Repr

/-- SOURCE: core/types.h:173-180 -/
structure JoinGroupResponse where
  errorCode : ℤ := 0
  generationId : ℤ := -1
  protocolName : Bytes := []
  leaderId : Bytes := []
  memberId : Bytes := []
  members : List JoinGroupMember := []
  deriving DecidableEq, Repr

/-- SOURCE: core/types.h:182-185 -/
structure SyncGroupAssignment where
  memberId : Bytes
  assignment : Bytes
  deriving DecidableEq, Repr

/-- SOURCE: core/types.h:187-194 -/
structure SyncGroupRequest where
  correlationId : ℤ := 0
  apiVersion : ℤ := 0
  groupId : Bytes := []
  generationId : ℤ := -1
  memberId : Bytes := []
  assignments : List SyncGroupAssignment := []
  deriving DecidableEq, Repr

/-- SOURCE: core/types.h:196-199 -/
structure SyncGroupResponse where
  errorCode : ℤ := 0
  memberAssignment : Bytes := []
  deriving DecidableEq, Repr

/-- SOURCE: core/types.h:201-207 -/
structure HeartbeatRequest where
  correlationId : ℤ := 0
  apiVersion : ℤ := 0
  groupId : Bytes := []
  generationId : ℤ := -1
  memberId : Bytes := []
  deriving DecidableEq, Repr

/-- SOURCE: core/types.h:209-214 -/
structure LeaveGroupRequest where
  correlationId : ℤ := 0
  apiVersion : ℤ := 0
  groupId : Bytes := []
  memberId : Bytes := []
  deriving DecidableEq, Repr

/-- SOURCE: core/types.h:216-221 -/
structure OffsetCommitPartitionRequest where
  tp : TopicPartition
  offset : ℤ := 0
  timestamp : ℤ := -1
  metadata : Bytes := []
  deriving DecidableEq, Repr

/-- SOURCE: core/types.h:223-231 -/
structure OffsetCommitRequest where
  correlationId : ℤ := 0
  apiVersion : ℤ := 0
  groupId : Bytes := []
  generationId : ℤ := -1
  memberId : Bytes := []
  retentionTimeMs : ℤ := -1
  partitions : List OffsetCommitPartitionRequest := []
  deriving DecidableEq, Repr

/-- SOURCE: core/types.h:233-236 -/
structure OffsetCommitPartitionResponse where
  tp : TopicPartition
  errorCode : ℤ := 0
  deriving DecidableEq, Repr

/-- SOURCE: core/types.h:238-240 -/
structure OffsetFetchPartitionRequest where
  tp : TopicPartition
  deriving DecidableEq, Repr

/-- SOURCE: core/types.h:242-247 -/
structure OffsetFetchRequest where
  correlationId : ℤ := 0
  apiVersion : ℤ := 0
  groupId : Bytes := []
  partitions : List OffsetFetchPartitionRequest := []
  deriving DecidableEq, Repr

/-- SOURCE: core/types.h:249-254 -/
structure OffsetFetchPartitionResponse where
  tp : TopicPartition
  offset : ℤ := -1
  metadata : Bytes := []
  errorCode : ℤ := 0
  deriving DecidableEq, Repr

/-- The settings the modelled functions read.
SOURCE: core/types.h:256-282 -/
structure BrokerConfig where
  bindAddress : Bytes := ascii "0.0.0.0"
  port : ℕ := 9092
  logDir : Bytes := ascii "/tmp/strikemq/data"
  segmentSize : ℕ := 1073741824
  brokerId : ℤ := 0

end StrikeMQ.Model
