import StrikeMQ.Lib.WireFormat
import StrikeMQ.Model.ConsumerGroup
import StrikeMQ.Model.KafkaDecoder

/-!
# Responses to JoinGroup

How a client parses the response to JoinGroup in versions 0 to 3, in Kafka's schema, and which
member ids a response can carry. A string of the schema is at most `2 ^ 15 - 1` bytes long. A
member id that the broker made is nine bytes longer than the client id it was made from, and
the client id can itself have the full length.
-/

set_option autoImplicit false

namespace StrikeMQ.Interface

open StrikeMQ.Lib StrikeMQ.Model

structure JoinReply where
  correlationId : ℤ
  throttleTimeMs : ℤ
  errorCode : ℤ
  generationId : ℤ
  protocolName : Bytes
  leader : Bytes
  memberId : Bytes
  members : List (Bytes × Bytes)
  deriving DecidableEq, Repr

namespace JoinReply

open Parser

def member : Parser (Bytes × Bytes) := do
  let memberId ← string
  let metadata ← bytes
  return (memberId, metadata)

def parser (version : ℕ) : Parser JoinReply := do
  let correlationId ← word 4
  let throttleTimeMs ← since 2 version (word 4) 0
  let errorCode ← word 2
  let generationId ← word 4
  let protocolName ← string
  let leader ← string
  let memberId ← string
  let members ← array member
  return ⟨correlationId, throttleTimeMs, errorCode, generationId, protocolName, leader, memberId,
    members⟩

/-- What `join_group` returned, as a reply. -/
def of (correlationId : ℤ) (resp : JoinGroupResponse) : JoinReply where
  correlationId := correlationId
  throttleTimeMs := 0
  errorCode := resp.errorCode
  generationId := resp.generationId
  protocolName := resp.protocolName
  leader := resp.leaderId
  memberId := resp.memberId
  members := resp.members.map fun m => (m.memberId, m.metadata)

end JoinReply

/-- The decoders return the request, from some bytes and in some place of them. -/
def Decoded (q : JoinGroupRequest) : Prop :=
  ∃ (m : Memory) (r r' : BinaryReader),
    (KafkaDecoder.decodeHeader >>= KafkaDecoder.decodeJoinGroup).run m r = some (q, r')

/-- The id under which the sender of a request joins. -/
def joinerId (env : GroupEnv) (q : JoinGroupRequest) : Bytes :=
  if q.memberId = [] then ConsumerGroupManager.generateMemberId env q.clientId else q.memberId

/-- An id that the group does not know, while it has members. -/
def UnknownMember (mgr : ConsumerGroupManager) (q : JoinGroupRequest) : Prop :=
  q.memberId ≠ [] ∧ q.memberId ∉ (mgr.groupOrNew q.groupId).members ∧
    (mgr.groupOrNew q.groupId).members.entries ≠ []

/-- The member ids that go into the response are short enough for it: the sender's own, which may
be one that is made from its client id, the one of the group's leader and, if this is the sender,
those of all members. -/
structure IdsFit (env : GroupEnv) (mgr : ConsumerGroupManager) (q : JoinGroupRequest) : Prop where
  joiner : q.memberId = [] → q.clientId.length + 9 < 2 ^ 15
  leader : (mgr.groupOrNew q.groupId).leaderId.length < 2 ^ 15
  members : (mgr.groupOrNew q.groupId).leaderId = joinerId env q →
    ∀ id ∈ (mgr.groupOrNew q.groupId).members, id.length < 2 ^ 15

end StrikeMQ.Interface
