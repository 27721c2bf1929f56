import StrikeMQ.Lib.WireFormat
import StrikeMQ.Model.RequestRouter

/-!
# The other requests on the wire

Kafka's schemas for the nine requests besides Produce that carry fields: how a client lays a
request out, at each version the broker speaks, and what the broker should make of it. A field
came with some version; a message of an earlier version is laid out without it, and is to be
read with the default.

The fields of a message are in the range of their wire type, so that every message has a layout.
-/

set_option autoImplicit false

namespace StrikeMQ.Interface

open StrikeMQ.Lib StrikeMQ.Model

/-! ## Topics and their partitions -/

section Topics

variable {π α : Type}

/-- One topic of a request, with what the request says of each partition. -/
structure Topic (π : Type) where
  name : ShortString
  partitions : WireList π

def Topic.bytes (layout : π → Bytes) (t : Topic π) : Bytes :=
  wireString t.name ++ wireArray layout t.partitions.val

def topicArray (layout : π → Bytes) (ts : WireList (Topic π)) : Bytes :=
  wireArray (Topic.bytes layout) ts.val

/-- The partitions in wire order, each with its own topic. -/
def byPartition (entry : Bytes → π → α) (ts : WireList (Topic π)) : List α :=
  ts.val.flatMap fun t => t.partitions.val.map (entry t.name)

end Topics

/-! ## Fetch -/

structure FetchPartitionMessage where
  index : Word 4
  fetchOffset : Word 8
  maxBytes : Word 4

structure FetchMessage where
  version : Fin 5
  replicaId : Word 4
  maxWaitMs : Word 4
  minBytes : Word 4
  maxBytes : Word 4
  isolationLevel : Word 1
  topics : WireList (Topic FetchPartitionMessage)

def FetchPartitionMessage.bytes (p : FetchPartitionMessage) : Bytes :=
  beInt 4 p.index ++ beInt 8 p.fetchOffset ++ beInt 4 p.maxBytes

def FetchPartitionMessage.request (topic : Bytes) (p : FetchPartitionMessage) : PartitionFetch :=
  ⟨⟨topic, p.index⟩, p.fetchOffset, p.maxBytes⟩

def FetchMessage.body (msg : FetchMessage) : Bytes :=
  beInt 4 msg.replicaId ++ beInt 4 msg.maxWaitMs ++ beInt 4 msg.minBytes ++
    (if 3 ≤ msg.version.val then beInt 4 msg.maxBytes else []) ++
    (if 4 ≤ msg.version.val then beInt 1 msg.isolationLevel else []) ++
    topicArray FetchPartitionMessage.bytes msg.topics

/-- The broker keeps neither the replica id nor the isolation level. -/
def FetchMessage.request (msg : FetchMessage) (correlationId : ℤ) : FetchRequest where
  correlationId := correlationId
  maxWaitMs := msg.maxWaitMs
  minBytes := msg.minBytes
  maxBytes := if 3 ≤ msg.version.val then msg.maxBytes else 52428800
  partitions := byPartition FetchPartitionMessage.request msg.topics

/-! ## ListOffsets -/

structure ListOffsetsPartitionMessage where
  index : Word 4
  timestamp : Word 8
  maxNumOffsets : Word 4

structure ListOffsetsMessage where
  version : Fin 3
  replicaId : Word 4
  isolationLevel : Word 1
  topics : WireList (Topic ListOffsetsPartitionMessage)

/-- Only version 0 bounds the number of offsets. -/
def ListOffsetsPartitionMessage.bytes (version : ℕ) (p : ListOffsetsPartitionMessage) : Bytes :=
  beInt 4 p.index ++ beInt 8 p.timestamp ++ (if version = 0 then beInt 4 p.maxNumOffsets else [])

def ListOffsetsPartitionMessage.request (topic : Bytes) (p : ListOffsetsPartitionMessage) :
    ListOffsetsPartition :=
  ⟨⟨topic, p.index⟩, p.timestamp⟩

def ListOffsetsMessage.body (msg : ListOffsetsMessage) : Bytes :=
  beInt 4 msg.replicaId ++ (if 2 ≤ msg.version.val then beInt 1 msg.isolationLevel else []) ++
    topicArray (ListOffsetsPartitionMessage.bytes msg.version) msg.topics

def ListOffsetsMessage.request (msg : ListOffsetsMessage) (correlationId : ℤ) :
    ListOffsetsRequest where
  correlationId := correlationId
  apiVersion := msg.version.val
  partitions := byPartition ListOffsetsPartitionMessage.request msg.topics

/-! ## Offsets of a group -/

structure OffsetCommitPartitionMessage where
  index : Word 4
  offset : Word 8
  timestamp : Word 8
  metadata : Option ShortString

structure OffsetCommitMessage where
  version : Fin 4
  groupId : ShortString
  generationId : Word 4
  memberId : ShortString
  retentionTimeMs : Word 8
  topics : WireList (Topic OffsetCommitPartitionMessage)

/-- Only version 1 has a time for each partition. -/
def OffsetCommitPartitionMessage.bytes (version : ℕ) (p : OffsetCommitPartitionMessage) : Bytes :=
  beInt 4 p.index ++ beInt 8 p.offset ++ (if version = 1 then beInt 8 p.timestamp else []) ++
    wireNullableString (p.metadata.map Subtype.val)

/-- Missing metadata are empty ones. -/
def OffsetCommitPartitionMessage.request (version : ℕ) (topic : Bytes)
    (p : OffsetCommitPartitionMessage) : OffsetCommitPartitionRequest :=
  ⟨⟨topic, p.index⟩, p.offset, if version = 1 then p.timestamp else -1,
    (p.metadata.map Subtype.val).getD []⟩

def OffsetCommitMessage.body (msg : OffsetCommitMessage) : Bytes :=
  wireString msg.groupId ++
    (if 1 ≤ msg.version.val then beInt 4 msg.generationId ++ wireString msg.memberId else []) ++
    (if 2 ≤ msg.version.val then beInt 8 msg.retentionTimeMs else []) ++
    topicArray (OffsetCommitPartitionMessage.bytes msg.version) msg.topics

def OffsetCommitMessage.request (msg : OffsetCommitMessage) (correlationId : ℤ) :
    OffsetCommitRequest where
  correlationId := correlationId
  apiVersion := msg.version.val
  groupId := msg.groupId
  generationId := if 1 ≤ msg.version.val then msg.generationId else -1
  memberId := if 1 ≤ msg.version.val then msg.memberId else []
  retentionTimeMs := if 2 ≤ msg.version.val then msg.retentionTimeMs else -1
  partitions := byPartition (OffsetCommitPartitionMessage.request msg.version) msg.topics

/-- From version 2 on a client may leave the topics out; the broker's request has no place for
the difference to a list without topics. -/
structure OffsetFetchMessage where
  version : Fin 4
  groupId : ShortString
  topics : Option (WireList (Topic (Word 4)))
  topics_of_version : version.val < 2 → topics.isSome

def partitionIndex (p : Word 4) : Bytes :=
  beInt 4 p

def partitionRequest (topic : Bytes) (p : Word 4) : OffsetFetchPartitionRequest :=
  ⟨⟨topic, p⟩⟩

def OffsetFetchMessage.body (msg : OffsetFetchMessage) : Bytes :=
  wireString msg.groupId ++ msg.topics.elim (beInt 4 (-1)) (topicArray partitionIndex)

def OffsetFetchMessage.request (msg : OffsetFetchMessage) (correlationId : ℤ) :
    OffsetFetchRequest where
  correlationId := correlationId
  apiVersion := msg.version.val
  groupId := msg.groupId
  partitions := msg.topics.elim [] (byPartition partitionRequest)

/-! ## Membership of a group -/

structure FindCoordinatorMessage where
  version : Fin 3
  key : ShortString
  keyType : Word 1

def FindCoordinatorMessage.body (msg : FindCoordinatorMessage) : Bytes :=
  wireString msg.key ++ (if 1 ≤ msg.version.val then beInt 1 msg.keyType else [])

def FindCoordinatorMessage.request (msg : FindCoordinatorMessage) (correlationId : ℤ) :
    FindCoordinatorRequest where
  correlationId := correlationId
  apiVersion := msg.version.val
  groupId := msg.key
  coordinatorType := if 1 ≤ msg.version.val then msg.keyType else 0

/-- A protocol that a member offers, or the assignment that the leader made for it. -/
structure NamedBytes where
  name : ShortString
  data : LongBytes

def NamedBytes.bytes (x : NamedBytes) : Bytes :=
  wireString x.name ++ wireBytes x.data.val

structure JoinGroupMessage where
  version : Fin 4
  groupId : ShortString
  sessionTimeoutMs : Word 4
  rebalanceTimeoutMs : Word 4
  memberId : ShortString
  protocolType : ShortString
  protocols : WireList NamedBytes

def JoinGroupMessage.body (msg : JoinGroupMessage) : Bytes :=
  wireString msg.groupId ++ beInt 4 msg.sessionTimeoutMs ++
    (if 1 ≤ msg.version.val then beInt 4 msg.rebalanceTimeoutMs else []) ++
    wireString msg.memberId ++ wireString msg.protocolType ++
    wireArray NamedBytes.bytes msg.protocols.val

def JoinGroupMessage.request (msg : JoinGroupMessage) (correlationId : ℤ) (clientId : Bytes) :
    JoinGroupRequest where
  correlationId := correlationId
  apiVersion := msg.version.val
  clientId := clientId
  groupId := msg.groupId
  sessionTimeoutMs := msg.sessionTimeoutMs
  rebalanceTimeoutMs := if 1 ≤ msg.version.val then msg.rebalanceTimeoutMs else 300000
  memberId := msg.memberId
  protocolType := msg.protocolType
  protocols := msg.protocols.val.map fun x => ⟨x.name, x.data⟩

structure SyncGroupMessage where
  version : Fin 3
  groupId : ShortString
  generationId : Word 4
  memberId : ShortString
  assignments : WireList NamedBytes

def SyncGroupMessage.body (msg : SyncGroupMessage) : Bytes :=
  wireString msg.groupId ++ beInt 4 msg.generationId ++ wireString msg.memberId ++
    wireArray NamedBytes.bytes msg.assignments.val

def SyncGroupMessage.request (msg : SyncGroupMessage) (correlationId : ℤ) : SyncGroupRequest where
  correlationId := correlationId
  apiVersion := msg.version.val
  groupId := msg.groupId
  generationId := msg.generationId
  memberId := msg.memberId
  assignments := msg.assignments.val.map fun x => ⟨x.name, x.data⟩

structure HeartbeatMessage where
  version : Fin 3
  groupId : ShortString
  generationId : Word 4
  memberId : ShortString

def HeartbeatMessage.body (msg : HeartbeatMessage) : Bytes :=
  wireString msg.groupId ++ beInt 4 msg.generationId ++ wireString msg.memberId

def HeartbeatMessage.request (msg : HeartbeatMessage) (correlationId : ℤ) : HeartbeatRequest where
  correlationId := correlationId
  apiVersion := msg.version.val
  groupId := msg.groupId
  generationId := msg.generationId
  memberId := msg.memberId

structure LeaveGroupMessage where
  version : Fin 2
  groupId : ShortString
  memberId : ShortString

def LeaveGroupMessage.body (msg : LeaveGroupMessage) : Bytes :=
  wireString msg.groupId ++ wireString msg.memberId

def LeaveGroupMessage.request (msg : LeaveGroupMessage) (correlationId : ℤ) :
    LeaveGroupRequest where
  correlationId := correlationId
  apiVersion := msg.version.val
  groupId := msg.groupId
  memberId := msg.memberId

/-! ## All of them -/

inductive RequestMessage where
  | fetch (msg : FetchMessage)
  | listOffsets (msg : ListOffsetsMessage)
  | offsetCommit (msg : OffsetCommitMessage)
  | offsetFetch (msg : OffsetFetchMessage)
  | findCoordinator (msg : FindCoordinatorMessage)
  | joinGroup (msg : JoinGroupMessage)
  | syncGroup (msg : SyncGroupMessage)
  | heartbeat (msg : HeartbeatMessage)
  | leaveGroup (msg : LeaveGroupMessage)

namespace RequestMessage

/-- Kafka's numbers for the requests. -/
def key : RequestMessage → ℤ
  | fetch _ => 1
  | listOffsets _ => 2
  | offsetCommit _ => 8
  | offsetFetch _ => 9
  | findCoordinator _ => 10
  | joinGroup _ => 11
  | heartbeat _ => 12
  | leaveGroup _ => 13
  | syncGroup _ => 14

def version : RequestMessage → ℕ
  | fetch msg => msg.version
  | listOffsets msg => msg.version
  | offsetCommit msg => msg.version
  | offsetFetch msg => msg.version
  | findCoordinator msg => msg.version
  | joinGroup msg => msg.version
  | syncGroup msg => msg.version
  | heartbeat msg => msg.version
  | leaveGroup msg => msg.version

def body : RequestMessage → Bytes
  | fetch msg => msg.body
  | listOffsets msg => msg.body
  | offsetCommit msg => msg.body
  | offsetFetch msg => msg.body
  | findCoordinator msg => msg.body
  | joinGroup msg => msg.body
  | syncGroup msg => msg.body
  | heartbeat msg => msg.body
  | leaveGroup msg => msg.body

/-- The request as the broker's handlers should see it. -/
def request (msg : RequestMessage) (correlationId : ℤ) (clientId : Bytes) : Request :=
  match msg with
  | fetch msg => .fetch (msg.request correlationId)
  | listOffsets msg => .listOffsets (msg.request correlationId)
  | offsetCommit msg => .offsetCommit (msg.request correlationId)
  | offsetFetch msg => .offsetFetch (msg.request correlationId)
  | findCoordinator msg => .findCoordinator (msg.request correlationId)
  | joinGroup msg => .joinGroup (msg.request correlationId clientId)
  | syncGroup msg => .syncGroup (msg.request correlationId)
  | heartbeat msg => .heartbeat (msg.request correlationId)
  | leaveGroup msg => .leaveGroup (msg.request correlationId)

/-- The request with its header. -/
def frame (msg : RequestMessage) (correlationId : Word 4) (clientId : Option ShortString) :
    Bytes :=
  beInt 2 msg.key ++ beInt 2 msg.version ++ beInt 4 correlationId ++
    wireNullableString (clientId.map Subtype.val) ++ msg.body

end RequestMessage

end StrikeMQ.Interface
