import StrikeMQ.Lib.WireFormat
import StrikeMQ.Model.Types

/-!
# Responses that list partitions by topic

How a client parses the responses to ListOffsets, Fetch, OffsetCommit and OffsetFetch, version by
version, in Kafka's schemas. All four hold an array of topics, each with an array of partitions; a
field that a version does not have gets the value that the schema gives it there. The second part
says what such a list of topics has to be for a list of results: the same results, sorted into
their topics and otherwise left in order.
-/

set_option autoImplicit false

namespace StrikeMQ.Interface

open StrikeMQ.Lib StrikeMQ.Model

/-! ## Schemas -/

structure ListOffsetsEntry where
  partition : ℤ
  errorCode : ℤ
  oldStyleOffsets : List ℤ := []
  timestamp : ℤ := -1
  offset : ℤ := -1
  deriving DecidableEq, Repr

structure FetchEntry where
  partition : ℤ
  errorCode : ℤ
  highWatermark : ℤ
  lastStableOffset : ℤ := -1
  abortedTransactions : Option (List (ℤ × ℤ)) := none
  records : Option Bytes
  deriving DecidableEq, Repr

structure OffsetCommitEntry where
  partition : ℤ
  errorCode : ℤ
  deriving DecidableEq, Repr

structure OffsetFetchEntry where
  partition : ℤ
  offset : ℤ
  metadata : Option Bytes
  errorCode : ℤ
  deriving DecidableEq, Repr

/-- The error code of the whole response is a field of OffsetFetch only. -/
structure GroupedReply (ε : Type) where
  correlationId : ℤ
  throttleTimeMs : ℤ
  topics : List (Bytes × List ε)
  errorCode : ℤ := 0
  deriving DecidableEq, Repr

namespace GroupedReply

open Parser

def topic {ε : Type} (entry : Parser ε) : Parser (Bytes × List ε) := do
  let name ← string
  let entries ← array entry
  return (name, entries)

def listOffsetsEntry (version : ℕ) : Parser ListOffsetsEntry := do
  let partition ← word 4
  let errorCode ← word 2
  let oldStyleOffsets ← before 1 version (array (word 8)) []
  let timestamp ← since 1 version (word 8) (-1)
  let offset ← since 1 version (word 8) (-1)
  return ⟨partition, errorCode, oldStyleOffsets, timestamp, offset⟩

def listOffsets (version : ℕ) : Parser (GroupedReply ListOffsetsEntry) := do
  let correlationId ← word 4
  let throttleTimeMs ← since 2 version (word 4) 0
  let topics ← array (topic (listOffsetsEntry version))
  return { correlationId, throttleTimeMs, topics }

def abortedTransaction : Parser (ℤ × ℤ) := do
  let producerId ← word 8
  let firstOffset ← word 8
  return (producerId, firstOffset)

def fetchEntry (version : ℕ) : Parser FetchEntry := do
  let partition ← word 4
  let errorCode ← word 2
  let highWatermark ← word 8
  let lastStableOffset ← since 4 version (word 8) (-1)
  let abortedTransactions ← since 4 version (nullableArray abortedTransaction) none
  let records ← nullableBytes
  return ⟨partition, errorCode, highWatermark, lastStableOffset, abortedTransactions, records⟩

def fetch (version : ℕ) : Parser (GroupedReply FetchEntry) := do
  let correlationId ← word 4
  let throttleTimeMs ← since 1 version (word 4) 0
  let topics ← array (topic (fetchEntry version))
  return { correlationId, throttleTimeMs, topics }

def offsetCommitEntry : Parser OffsetCommitEntry := do
  let partition ← word 4
  let errorCode ← word 2
  return ⟨partition, errorCode⟩

def offsetCommit (version : ℕ) : Parser (GroupedReply OffsetCommitEntry) := do
  let correlationId ← word 4
  let throttleTimeMs ← since 3 version (word 4) 0
  let topics ← array (topic offsetCommitEntry)
  return { correlationId, throttleTimeMs, topics }

def offsetFetchEntry : Parser OffsetFetchEntry := do
  let partition ← word 4
  let offset ← word 8
  let metadata ← nullableString
  let errorCode ← word 2
  return ⟨partition, offset, metadata, errorCode⟩

def offsetFetch (version : ℕ) : Parser (GroupedReply OffsetFetchEntry) := do
  let correlationId ← word 4
  let throttleTimeMs ← since 3 version (word 4) 0
  let topics ← array (topic offsetFetchEntry)
  let errorCode ← since 2 version (word 2) 0
  return { correlationId, throttleTimeMs, topics, errorCode }

end GroupedReply

/-! ## Results and their entries -/

/-- A partition as its C++ type and the wire can hold it. -/
structure TopicPartition.Sendable (tp : TopicPartition) : Prop where
  topic : tp.topic.length < 2 ^ 15
  partition : Fits 4 tp.partition

structure ListOffsetsSendable (p : ListOffsetsPartitionResponse) : Prop where
  tp : TopicPartition.Sendable p.tp
  errorCode : Fits 2 p.errorCode
  timestamp : Fits 8 p.timestamp
  offset : Fits 8 p.offset

structure FetchSendable (p : FetchPartitionResponse) : Prop where
  tp : TopicPartition.Sendable p.tp
  errorCode : Fits 2 p.errorCode
  highWatermark : Fits 8 p.highWatermark

structure OffsetCommitSendable (p : OffsetCommitPartitionResponse) : Prop where
  tp : TopicPartition.Sendable p.tp
  errorCode : Fits 2 p.errorCode

structure OffsetFetchSendable (p : OffsetFetchPartitionResponse) : Prop where
  tp : TopicPartition.Sendable p.tp
  offset : Fits 8 p.offset
  metadata : p.metadata.length < 2 ^ 15
  errorCode : Fits 2 p.errorCode

/-- Version 0 has a list of offsets and no timestamp. -/
def ListOffsetsEntry.of (version : ℕ) (p : ListOffsetsPartitionResponse) : ListOffsetsEntry :=
  if version = 0 then
    { partition := p.tp.partition, errorCode := p.errorCode, oldStyleOffsets := [p.offset] }
  else
    { partition := p.tp.partition, errorCode := p.errorCode, timestamp := p.timestamp
      offset := p.offset }

/-- The last stable offset, which version 4 has, is the high watermark. -/
def FetchEntry.of (version : ℕ) (p : FetchPartitionResponse) : FetchEntry where
  partition := p.tp.partition
  errorCode := p.errorCode
  highWatermark := p.highWatermark
  lastStableOffset := if 4 ≤ version then p.highWatermark else -1
  records := some (p.recordData.getD [])

def OffsetCommitEntry.of (p : OffsetCommitPartitionResponse) : OffsetCommitEntry where
  partition := p.tp.partition
  errorCode := p.errorCode

def OffsetFetchEntry.of (p : OffsetFetchPartitionResponse) : OffsetFetchEntry where
  partition := p.tp.partition
  offset := p.offset
  metadata := some p.metadata
  errorCode := p.errorCode

/-- The topics list the results: each topic once, in the order in which the topics first occur,
with exactly its own results in their order. -/
structure Regrouped {α ε : Type} (topicOf : α → Bytes) (entry : α → ε) (parts : List α)
    (topics : List (Bytes × List ε)) : Prop where
  nodup : (topics.map Prod.fst).Nodup
  mem_iff : ∀ name, name ∈ topics.map Prod.fst ↔ name ∈ parts.map topicOf
  first_appearance : (topics.map Prod.fst).Pairwise fun a b =>
    (parts.map topicOf).idxOf a < (parts.map topicOf).idxOf b
  entries_eq : ∀ t ∈ topics, t.2 = (parts.filter fun p => topicOf p = t.1).map entry
  perm : (topics.flatMap fun t => t.2.map fun e => (t.1, e)).Perm
    (parts.map fun p => (topicOf p, entry p))

end StrikeMQ.Interface
