import StrikeMQ.Interface.RecordFormat
import StrikeMQ.Model.Types

/-!
# Produce requests and responses on the wire

Kafka's Produce messages of versions 0 to 5, from the side of a client: how a request is laid
out, and how a response to a request of some version is parsed. The fields that a response has
depend on the version of the request; a client parses with the layout of the version it asked
with, and takes the message only if its size is right and no byte is left over.
-/

set_option autoImplicit false

namespace StrikeMQ.Interface

open StrikeMQ.Lib StrikeMQ.Model

/-! ## Requests -/

structure PartitionData where
  index : Word 4
  records : RecordData

structure TopicData where
  name : ShortString
  partitions : List PartitionData

structure ProduceMessage where
  version : Fin 6
  correlationId : Word 4
  clientId : Option ShortString := none
  transactionalId : Option ShortString := none
  acks : Word 2 := wordOf 2 (-1)
  timeoutMs : Word 4 := wordOf 4 30000
  topics : List TopicData

def PartitionData.bytes (p : PartitionData) : Bytes :=
  beInt 4 p.index ++ wireBytes p.records.bytes

def TopicData.bytes (t : TopicData) : Bytes :=
  wireString t.name ++ wireArray PartitionData.bytes t.partitions

def TopicData.byPartition (t : TopicData) : List (TopicPartition × RecordData) :=
  t.partitions.map fun p => (⟨t.name, p.index⟩, p.records)

namespace ProduceMessage

/-- The request with its header, behind its size. Produce has the API key 0; the transactional
id came with version 3. -/
def frame (msg : ProduceMessage) : Bytes :=
  beInt 2 0 ++ beInt 2 msg.version.val ++ beInt 4 msg.correlationId ++
    wireNullableString (msg.clientId.map Subtype.val) ++
    (if 3 ≤ msg.version.val then wireNullableString (msg.transactionalId.map Subtype.val)
      else []) ++
    beInt 2 msg.acks ++ beInt 4 msg.timeoutMs ++ wireArray TopicData.bytes msg.topics

/-- What the request produces to each partition, in wire order. -/
def partitions (msg : ProduceMessage) : List (TopicPartition × RecordData) :=
  msg.topics.flatMap TopicData.byPartition

/-- The partitions that the request produces to, in wire order. -/
def topicPartitions (msg : ProduceMessage) : List TopicPartition :=
  msg.partitions.map Prod.fst

def Short (msg : ProduceMessage) : Prop :=
  ∀ p ∈ msg.partitions, p.2.Short

instance (msg : ProduceMessage) : Decidable msg.Short :=
  inferInstanceAs (Decidable (∀ p ∈ msg.partitions, p.2.Short))

/-- The records of all the partitions. -/
def recordCount (msg : ProduceMessage) : ℕ :=
  (msg.partitions.map fun p => p.2.records.length).sum

end ProduceMessage

/-! ## Responses -/

structure ProduceEntry where
  partition : ℤ
  errorCode : ℤ
  baseOffset : ℤ
  logAppendTime : ℤ
  logStartOffset : ℤ
  deriving DecidableEq, Repr

structure ProduceReply where
  correlationId : ℤ
  topics : List (Bytes × List ProduceEntry)
  throttleTimeMs : ℤ
  deriving DecidableEq, Repr

namespace ProduceReply

open Parser

def entry (version : ℕ) : Parser ProduceEntry := do
  let partition ← word 4
  let errorCode ← word 2
  let baseOffset ← word 8
  let logAppendTime ← since 2 version (word 8) (-1)
  let logStartOffset ← since 5 version (word 8) (-1)
  return ⟨partition, errorCode, baseOffset, logAppendTime, logStartOffset⟩

def topic (version : ℕ) : Parser (Bytes × List ProduceEntry) := do
  let name ← string
  let entries ← array (entry version)
  return (name, entries)

def reply (version : ℕ) : Parser ProduceReply := do
  let correlationId ← word 4
  let topics ← array (topic version)
  let throttleTimeMs ← since 1 version (word 4) 0
  return ⟨correlationId, topics, throttleTimeMs⟩

/-- The message of a response, size included, to a request of the version. -/
def parse (version : ℕ) (response : Bytes) : Option ProduceReply := do
  let (size, body) ← word 4 response
  if size = body.length then
    match reply version body with
    | some (r, []) => some r
    | _ => none
  else none

/-- The base offsets in the reply, each with the partition it is listed for. -/
def offsets (r : ProduceReply) : List (TopicPartition × ℤ) :=
  r.topics.flatMap fun t => t.2.map fun e => (⟨t.1, e.partition⟩, e.baseOffset)

/-- A client that sent a request of this version and correlation id reads off the response
that these offsets, and no others, were assigned, each to its own partition. -/
def Tells (version : ℕ) (correlationId : ℤ) (response : Bytes)
    (assigned : List (TopicPartition × ℤ)) : Prop :=
  ∃ r, parse version response = some r ∧ r.correlationId = correlationId ∧
    r.offsets.Perm assigned

end ProduceReply

end StrikeMQ.Interface
