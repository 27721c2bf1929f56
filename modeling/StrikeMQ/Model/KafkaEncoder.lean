import StrikeMQ.Lib.Grouping
import StrikeMQ.Model.Types

/-!
# Encoding Kafka responses

`BinaryWriter` and `KafkaEncoder` of `protocol/kafka_codec.h`. The writer is given a
capacity and never looks at it; its bytes so far are all that a write appends to, and its
position is their number. Each encoder returns the bytes it has put into the buffer, so the
size that the source returns is their length.
-/

set_option autoImplicit false

namespace StrikeMQ.Model

open StrikeMQ.Lib

/-- SOURCE: protocol/kafka_codec.h:79-110 -/
structure BinaryWriter where
  data : Bytes := []
  capacity : ℕ

namespace BinaryWriter

def position (w : BinaryWriter) : ℕ :=
  w.data.length

/-- SOURCE: protocol/kafka_codec.h:103-105 -/
def writeRaw (w : BinaryWriter) (src : Bytes) : BinaryWriter :=
  { w with data := w.data ++ src }

/-- SOURCE: protocol/kafka_codec.h:83 -/
def writeInt8 (w : BinaryWriter) (v : ℤ) : BinaryWriter :=
  w.writeRaw (beInt 1 v)

/-- SOURCE: protocol/kafka_codec.h:84 -/
def writeInt16 (w : BinaryWriter) (v : ℤ) : BinaryWriter :=
  w.writeRaw (beInt 2 v)

/-- SOURCE: protocol/kafka_codec.h:85 -/
def writeInt32 (w : BinaryWriter) (v : ℤ) : BinaryWriter :=
  w.writeRaw (beInt 4 v)

/-- SOURCE: protocol/kafka_codec.h:86 -/
def writeInt64 (w : BinaryWriter) (v : ℤ) : BinaryWriter :=
  w.writeRaw (beInt 8 v)

/-- All the bytes are written, whatever the 16-bit length before them can say.
SOURCE: protocol/kafka_codec.h:88-91 -/
def writeString (w : BinaryWriter) (s : Bytes) : BinaryWriter :=
  (w.writeInt16 s.length).writeRaw s

/-- The place of a size that `patchSize` fills in.
SOURCE: protocol/kafka_codec.h:96 -/
def writeSizePlaceholder (w : BinaryWriter) : ℕ × BinaryWriter :=
  (w.position, w.writeRaw (beInt 4 0))

/-- SOURCE: protocol/kafka_codec.h:97-101 -/
def patchSize (w : BinaryWriter) (ph : ℕ) : BinaryWriter :=
  { w with
    data := w.data.take ph ++ beInt 4 ((w.position : ℤ) - ph - 4) ++ w.data.drop (ph + 4) }

/-- The bytes of `write_uvarint`, low group first; five rounds are enough for a `uint32_t`.
SOURCE: protocol/kafka_codec.cpp:341-347 -/
def uvarintBytes : ℕ → ℕ → Bytes
  | 0, _ => []
  | fuel + 1, val =>
    if val > 0x7F then UInt8.ofNat ((val &&& 0x7F) ||| 0x80) :: uvarintBytes fuel (val >>> 7)
    else [UInt8.ofNat val]

def writeUvarint (w : BinaryWriter) (val : ℕ) : BinaryWriter :=
  w.writeRaw (uvarintBytes 5 val)

/-- An array whose length is written before its elements. -/
def writeArray {α : Type} (w : BinaryWriter) (entry : BinaryWriter → α → BinaryWriter)
    (xs : List α) : BinaryWriter :=
  xs.foldl entry (w.writeInt32 xs.length)

/-- BYTES: a 32-bit length, and the bytes if there are any. -/
def writeBytes (w : BinaryWriter) (bs : Bytes) : BinaryWriter :=
  let w := w.writeInt32 bs.length
  if bs ≠ [] then w.writeRaw bs else w

end BinaryWriter

/-- SOURCE: protocol/kafka_codec.h:159-165 -/
structure MetadataInfo where
  brokerId : ℤ := 0
  host : Bytes := ascii "localhost"
  port : ℕ := 9092
  topics : List Bytes := []
  numPartitions : ℤ := 1
  deriving DecidableEq, Repr

/-- What a FindCoordinator handler fills in.
SOURCE: protocol/kafka_codec.cpp:647-650 -/
structure CoordinatorInfo where
  errorCode : ℤ := 0
  nodeId : ℤ := 0
  host : Bytes := []
  port : ℤ := 0
  deriving DecidableEq, Repr

/-- The topics of a list of partitions, each once, in the order of their first partitions.
SOURCE: protocol/kafka_codec.cpp:261-267, 305-310, 523-528, 556-561 -/
def topicsOf (tps : List TopicPartition) : List Bytes :=
  distinct (tps.map TopicPartition.topic)

namespace KafkaEncoder

/-- What every encoder does around its body: the place of the size first, the size last. -/
def encodeFrame (cap : ℕ) (body : BinaryWriter → BinaryWriter) : Bytes :=
  let (sp, w) := BinaryWriter.writeSizePlaceholder { capacity := cap }
  ((body w).patchSize sp).data

/-- The partitions of a response grouped by topic, as four of the encoders write them.
SOURCE: protocol/kafka_codec.cpp:261-289, 304-334, 522-541, 555-576 -/
def writeByTopic {α : Type} (tp : α → TopicPartition) (entry : BinaryWriter → α → BinaryWriter)
    (w : BinaryWriter) (parts : List α) : BinaryWriter :=
  w.writeArray
    (fun w topic =>
      (w.writeString topic).writeArray entry (parts.filter fun p => (tp p).topic = topic))
    (topicsOf (parts.map tp))

/-- SOURCE: protocol/kafka_codec.cpp:213-228 -/
def encodeProduceResponse (cap : ℕ) (cid : ℤ) (parts : List ProducePartitionResponse)
    (topic : Bytes) : Bytes :=
  encodeFrame cap fun w =>
    let w := w.writeInt32 cid
    let w := (w.writeInt32 1).writeString topic
    let w := w.writeArray
      (fun w p =>
        ((((w.writeInt32 p.partition).writeInt16 p.errorCode).writeInt64 p.baseOffset).writeInt64
          p.logAppendTime).writeInt64 p.logStartOffset)
      parts
    w.writeInt32 0

/-- SOURCE: protocol/kafka_codec.cpp:252-293 -/
def encodeListOffsetsResponse (cap : ℕ) (cid : ℤ) (parts : List ListOffsetsPartitionResponse)
    (apiVersion : ℤ) : Bytes :=
  encodeFrame cap fun w =>
    let w := w.writeInt32 cid
    let w := if apiVersion ≥ 2 then w.writeInt32 0 else w
    writeByTopic (·.tp)
      (fun w p =>
        let w := (w.writeInt32 p.tp.partition).writeInt16 p.errorCode
        if apiVersion = 0 then (w.writeInt32 1).writeInt64 p.offset
        else (w.writeInt64 p.timestamp).writeInt64 p.offset)
      w parts

/-- SOURCE: protocol/kafka_codec.cpp:295-338 -/
def encodeFetchResponse (cap : ℕ) (cid : ℤ) (parts : List FetchPartitionResponse)
    (apiVersion : ℤ) : Bytes :=
  encodeFrame cap fun w =>
    let w := w.writeInt32 cid
    let w := if apiVersion ≥ 1 then w.writeInt32 0 else w
    writeByTopic (·.tp)
      (fun w p =>
        let w := ((w.writeInt32 p.tp.partition).writeInt16 p.errorCode).writeInt64 p.highWatermark
        let w :=
          if apiVersion ≥ 4 then (w.writeInt64 p.highWatermark).writeInt32 (-1) else w
        w.writeBytes (p.recordData.getD []))
      w parts

/-- The advertised APIs: key, lowest and highest version.
SOURCE: protocol/kafka_codec.cpp:352-366 -/
def apis : List (ℤ × ℤ × ℤ) :=
  [(0, 0, 5), (1, 0, 4), (2, 0, 2), (3, 0, 0), (8, 0, 3), (9, 0, 3), (10, 0, 2), (11, 0, 3),
    (12, 0, 2), (13, 0, 1), (14, 0, 2), (18, 0, 3), (19, 0, 3)]

def writeApi (w : BinaryWriter) (a : ℤ × ℤ × ℤ) : BinaryWriter :=
  ((w.writeInt16 a.1).writeInt16 a.2.1).writeInt16 a.2.2

/-- SOURCE: protocol/kafka_codec.cpp:349-403 -/
def encodeApiVersionsResponse (cap : ℕ) (cid apiVersion : ℤ) : Bytes :=
  encodeFrame cap fun w =>
    if apiVersion ≥ 3 then
      let w := ((w.writeInt32 cid).writeInt16 0).writeUvarint (13 + 1)
      let w := apis.foldl (fun w a => (writeApi w a).writeInt8 0) w
      (w.writeInt32 0).writeInt8 0
    else
      let w := ((w.writeInt32 cid).writeInt16 0).writeInt32 13
      let w := apis.foldl writeApi w
      if apiVersion ≥ 1 then w.writeInt32 0 else w

/-- SOURCE: protocol/kafka_codec.cpp:423-429 -/
def writePartitionMetadata (brokerId : ℤ) (w : BinaryWriter) (p : ℕ) : BinaryWriter :=
  let w := ((w.writeInt16 0).writeInt32 p).writeInt32 brokerId
  let w := (w.writeInt32 1).writeInt32 brokerId
  (w.writeInt32 1).writeInt32 brokerId

/-- SOURCE: protocol/kafka_codec.cpp:405-433 -/
def encodeMetadataResponse (cap : ℕ) (cid : ℤ) (info : MetadataInfo) : Bytes :=
  encodeFrame cap fun w =>
    let w := w.writeInt32 cid
    let w := (((w.writeInt32 1).writeInt32 info.brokerId).writeString info.host).writeInt32 info.port
    w.writeArray
      (fun w t =>
        let w := ((w.writeInt16 0).writeString t).writeInt32 info.numPartitions
        (List.range info.numPartitions.toNat).foldl (writePartitionMetadata info.brokerId) w)
      info.topics

/-- SOURCE: protocol/kafka_codec.cpp:437-451 -/
def encodeFindCoordinatorResponse (cap : ℕ) (cid apiVersion : ℤ) (info : CoordinatorInfo) : Bytes :=
  encodeFrame cap fun w =>
    let w := w.writeInt32 cid
    let w := if apiVersion ≥ 1 then w.writeInt32 0 else w
    let w := w.writeInt16 info.errorCode
    let w := if apiVersion ≥ 1 then w.writeString [] else w
    ((w.writeInt32 info.nodeId).writeString info.host).writeInt32 info.port

/-- SOURCE: protocol/kafka_codec.cpp:453-475 -/
def encodeJoinGroupResponse (cap : ℕ) (cid apiVersion : ℤ) (resp : JoinGroupResponse) : Bytes :=
  encodeFrame cap fun w =>
    let w := w.writeInt32 cid
    let w := if apiVersion ≥ 2 then w.writeInt32 0 else w
    let w := (w.writeInt16 resp.errorCode).writeInt32 resp.generationId
    let w := ((w.writeString resp.protocolName).writeString resp.leaderId).writeString resp.memberId
    w.writeArray (fun w m => (w.writeString m.memberId).writeBytes m.metadata) resp.members

/-- SOURCE: protocol/kafka_codec.cpp:477-491 -/
def encodeSyncGroupResponse (cap : ℕ) (cid apiVersion : ℤ) (resp : SyncGroupResponse) : Bytes :=
  encodeFrame cap fun w =>
    let w := w.writeInt32 cid
    let w := if apiVersion ≥ 1 then w.writeInt32 0 else w
    (w.writeInt16 resp.errorCode).writeBytes resp.memberAssignment

/-- An error code after the throttle time of the later versions. -/
def encodeErrorResponse (cap : ℕ) (cid apiVersion errorCode : ℤ) : Bytes :=
  encodeFrame cap fun w =>
    let w := w.writeInt32 cid
    let w := if apiVersion ≥ 1 then w.writeInt32 0 else w
    w.writeInt16 errorCode

/-- SOURCE: protocol/kafka_codec.cpp:493-502 -/
def encodeHeartbeatResponse (cap : ℕ) (cid apiVersion errorCode : ℤ) : Bytes :=
  encodeErrorResponse cap cid apiVersion errorCode

/-- SOURCE: protocol/kafka_codec.cpp:504-513 -/
def encodeLeaveGroupResponse (cap : ℕ) (cid apiVersion errorCode : ℤ) : Bytes :=
  encodeErrorResponse cap cid apiVersion errorCode

/-- SOURCE: protocol/kafka_codec.cpp:515-545 -/
def encodeOffsetCommitResponse (cap : ℕ) (cid apiVersion : ℤ)
    (parts : List OffsetCommitPartitionResponse) : Bytes :=
  encodeFrame cap fun w =>
    let w := w.writeInt32 cid
    let w := if apiVersion ≥ 3 then w.writeInt32 0 else w
    writeByTopic (·.tp) (fun w p => (w.writeInt32 p.tp.partition).writeInt16 p.errorCode) w parts

/-- SOURCE: protocol/kafka_codec.cpp:547-583 -/
def encodeOffsetFetchResponse (cap : ℕ) (cid apiVersion : ℤ)
    (parts : List OffsetFetchPartitionResponse) (groupErrorCode : ℤ) : Bytes :=
  encodeFrame cap fun w =>
    let w := w.writeInt32 cid
    let w := if apiVersion ≥ 3 then w.writeInt32 0 else w
    let w := writeByTopic (·.tp)
      (fun w p =>
        (((w.writeInt32 p.tp.partition).writeInt64 p.offset).writeString p.metadata).writeInt16
          p.errorCode)
      w parts
    if apiVersion ≥ 2 then w.writeInt16 groupErrorCode else w

end KafkaEncoder

end StrikeMQ.Model
