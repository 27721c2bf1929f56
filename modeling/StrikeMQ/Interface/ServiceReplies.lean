import StrikeMQ.Lib.Varint
import StrikeMQ.Model.KafkaEncoder

/-!
# The other responses

How a client parses the responses to ApiVersions, Metadata, FindCoordinator, SyncGroup, Heartbeat
and LeaveGroup in the versions the broker speaks, in Kafka's schemas, and which reply each of them
is to be parsed to. From version 3 on the arrays of an ApiVersions response are compact, with
tagged fields behind each element and behind the message.
-/

set_option autoImplicit false

namespace StrikeMQ.Interface

open StrikeMQ.Lib StrikeMQ.Model

structure ApiVersionsReply where
  correlationId : ℤ
  errorCode : ℤ
  apis : List (ℤ × ℤ × ℤ)
  throttleTimeMs : ℤ
  deriving DecidableEq, Repr

structure PartitionEntry where
  errorCode : ℤ
  partition : ℤ
  leader : ℤ
  replicas : List ℤ
  isr : List ℤ
  deriving DecidableEq, Repr

structure TopicEntry where
  errorCode : ℤ
  name : Bytes
  partitions : List PartitionEntry
  deriving DecidableEq, Repr

structure MetadataReply where
  correlationId : ℤ
  brokers : List (ℤ × Bytes × ℤ)
  topics : List TopicEntry
  deriving DecidableEq, Repr

structure CoordinatorReply where
  correlationId : ℤ
  throttleTimeMs : ℤ
  errorCode : ℤ
  errorMessage : Option Bytes
  nodeId : ℤ
  host : Bytes
  port : ℤ
  deriving DecidableEq, Repr

structure SyncReply where
  correlationId : ℤ
  throttleTimeMs : ℤ
  errorCode : ℤ
  assignment : Bytes
  deriving DecidableEq, Repr

/-- Heartbeat and LeaveGroup have the same schema. -/
structure ErrorReply where
  correlationId : ℤ
  throttleTimeMs : ℤ
  errorCode : ℤ
  deriving DecidableEq, Repr

open Parser

namespace ApiVersionsReply

def api : Parser (ℤ × ℤ × ℤ) := do
  let key ← word 2
  let lowest ← word 2
  let highest ← word 2
  return (key, lowest, highest)

def taggedApi : Parser (ℤ × ℤ × ℤ) := do
  let a ← api
  let _ ← tags
  return a

def list (version : ℕ) : Parser (List (ℤ × ℤ × ℤ)) :=
  if 3 ≤ version then compactArray taggedApi else array api

/-- The header of this response has no tagged fields in any version. -/
def parser (version : ℕ) : Parser ApiVersionsReply := do
  let correlationId ← word 4
  let errorCode ← word 2
  let apis ← list version
  let throttleTimeMs ← since 1 version (word 4) 0
  let _ ← since 3 version tags []
  return ⟨correlationId, errorCode, apis, throttleTimeMs⟩

def of (correlationId : ℤ) : ApiVersionsReply where
  correlationId := correlationId
  errorCode := 0
  apis := KafkaEncoder.apis
  throttleTimeMs := 0

end ApiVersionsReply

namespace MetadataReply

def broker : Parser (ℤ × Bytes × ℤ) := do
  let nodeId ← word 4
  let host ← string
  let port ← word 4
  return (nodeId, host, port)

def partition : Parser PartitionEntry := do
  let errorCode ← word 2
  let partition ← word 4
  let leader ← word 4
  let replicas ← array (word 4)
  let isr ← array (word 4)
  return ⟨errorCode, partition, leader, replicas, isr⟩

def topic : Parser TopicEntry := do
  let errorCode ← word 2
  let name ← string
  let partitions ← array partition
  return ⟨errorCode, name, partitions⟩

/-- Version 0, the only one the broker speaks. -/
def parser : Parser MetadataReply := do
  let correlationId ← word 4
  let brokers ← array broker
  let topics ← array topic
  return ⟨correlationId, brokers, topics⟩

/-- The broker leads every partition and is its only replica. -/
def topicOf (info : MetadataInfo) (name : Bytes) : TopicEntry where
  errorCode := 0
  name := name
  partitions := (List.range info.numPartitions.toNat).map fun (p : ℕ) =>
    ⟨0, p, info.brokerId, [info.brokerId], [info.brokerId]⟩

def of (correlationId : ℤ) (info : MetadataInfo) : MetadataReply where
  correlationId := correlationId
  brokers := [(info.brokerId, info.host, info.port)]
  topics := info.topics.map (topicOf info)

end MetadataReply

namespace CoordinatorReply

def parser (version : ℕ) : Parser CoordinatorReply := do
  let correlationId ← word 4
  let throttleTimeMs ← since 1 version (word 4) 0
  let errorCode ← word 2
  let errorMessage ← since 1 version nullableString none
  let nodeId ← word 4
  let host ← string
  let port ← word 4
  return ⟨correlationId, throttleTimeMs, errorCode, errorMessage, nodeId, host, port⟩

def of (version : ℕ) (correlationId : ℤ) (info : CoordinatorInfo) : CoordinatorReply where
  correlationId := correlationId
  throttleTimeMs := 0
  errorCode := info.errorCode
  errorMessage := if 1 ≤ version then some [] else none
  nodeId := info.nodeId
  host := info.host
  port := info.port

end CoordinatorReply

namespace SyncReply

def parser (version : ℕ) : Parser SyncReply := do
  let correlationId ← word 4
  let throttleTimeMs ← since 1 version (word 4) 0
  let errorCode ← word 2
  let assignment ← bytes
  return ⟨correlationId, throttleTimeMs, errorCode, assignment⟩

def of (correlationId : ℤ) (resp : SyncGroupResponse) : SyncReply where
  correlationId := correlationId
  throttleTimeMs := 0
  errorCode := resp.errorCode
  assignment := resp.memberAssignment

end SyncReply

namespace ErrorReply

def parser (version : ℕ) : Parser ErrorReply := do
  let correlationId ← word 4
  let throttleTimeMs ← since 1 version (word 4) 0
  let errorCode ← word 2
  return ⟨correlationId, throttleTimeMs, errorCode⟩

def of (correlationId errorCode : ℤ) : ErrorReply where
  correlationId := correlationId
  throttleTimeMs := 0
  errorCode := errorCode

end ErrorReply

/-! ## What can be sent -/

structure MetadataSendable (info : MetadataInfo) : Prop where
  brokerId : Fits 4 info.brokerId
  host : info.host.length < 2 ^ 15
  port : Fits 4 info.port
  topics : ∀ name ∈ info.topics, name.length < 2 ^ 15
  numPartitions : 0 ≤ info.numPartitions

structure CoordinatorSendable (info : CoordinatorInfo) : Prop where
  errorCode : Fits 2 info.errorCode
  nodeId : Fits 4 info.nodeId
  host : info.host.length < 2 ^ 15
  port : Fits 4 info.port

end StrikeMQ.Interface
