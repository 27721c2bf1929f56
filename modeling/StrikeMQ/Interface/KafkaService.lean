import StrikeMQ.Interface.JoinReplies
import StrikeMQ.Interface.ProduceProtocol
import StrikeMQ.Interface.RequestSchemas
import StrikeMQ.Interface.ResponseSchemas
import StrikeMQ.Interface.ServiceReplies
import StrikeMQ.Model.Broker

/-!
# The service behind the wire

What the broker is for, without the bytes: a client makes a call, the broker performs the request
that the call denotes on its logs and groups, and the client gets the result. `perform` is this
service; it is what `main.cpp` sets on the router, before any response is encoded. The frame of a
call and what its sender takes from the response are those of Kafka's schemas, at the version of
the call.

`Exchanges` says that a sequence of calls was served: each was performed in the state that the one
before it left, and each response tells its sender the result. Two things may be in the way, and
the service says so: a response longer than the buffer that it is built in, and a Produce request
that is not of version 5 or not for one topic, whose response has the layout of one that is.
-/

set_option autoImplicit false

namespace StrikeMQ.Interface

open StrikeMQ.Lib StrikeMQ.Model

/-! ## Calls -/

/-- Of an ApiVersions request nothing is read behind the correlation id. -/
inductive ServiceCall where
  | produce (msg : ProduceMessage)
  | apiVersions (version : Fin 4) (correlationId : Word 4) (rest : Bytes)
  | metadata (correlationId : Word 4) (clientId : Option ShortString)
    (topics : WireList ShortString)
  | request (correlationId : Word 4) (clientId : Option ShortString) (msg : RequestMessage)

namespace ServiceCall

def correlationId : ServiceCall → Word 4
  | produce msg => msg.correlationId
  | apiVersions _ cid _ => cid
  | metadata cid _ _ => cid
  | request cid _ _ => cid

/-- Metadata is spoken in version 0 only. -/
def version : ServiceCall → ℕ
  | produce msg => msg.version
  | apiVersions version _ _ => version
  | metadata _ _ _ => 0
  | request _ _ msg => msg.version

def frame : ServiceCall → Bytes
  | produce msg => msg.frame
  | apiVersions version cid rest => beInt 2 18 ++ beInt 2 version.val ++ beInt 4 cid ++ rest
  | metadata cid clientId topics =>
    beInt 2 3 ++ beInt 2 0 ++ beInt 4 cid ++ wireNullableString (clientId.map Subtype.val) ++
      wireArray (fun t : ShortString => wireString t) topics.val
  | request cid clientId msg => msg.frame cid clientId

/-- The records that the call appends. -/
def recordCount : ServiceCall → ℕ
  | produce msg => msg.recordCount
  | _ => 0

/-- What the handlers are to be given: for a Produce request, the partitions in wire order, each
with the bytes of its records. -/
def Denotes : ServiceCall → Request → Prop
  | produce msg, r => ∃ q, r = .produce q ∧
      q.batches.map RecordBatch.topicPartition = msg.topicPartitions ∧
      q.batches.map (fun b => b.records.map Record.data) =
        msg.partitions.map fun p => p.2.records.map fun r => some r.bytes
  | apiVersions _ _ _, r => r = .apiVersions
  | metadata _ _ topics, r => r = .metadata (topics.val.map Subtype.val)
  | request cid clientId msg, r => r = msg.request cid ((clientId.map Subtype.val).getD [])

/-- An id that the broker makes for a new member is nine bytes longer than the name of its
client. -/
def IdFits : ServiceCall → Prop
  | request _ clientId (.joinGroup msg) =>
    msg.memberId.val = [] → ((clientId.map Subtype.val).getD []).length + 9 < 2 ^ 15
  | _ => True

/-- Every varint of the call can be read as a 32-bit one. -/
def Short : ServiceCall → Prop
  | produce msg => msg.Short
  | _ => True

/-- The one layout of a Produce response suits the request. -/
def OneLayout : ServiceCall → Prop
  | produce msg => msg.version.val = 5 ∧ ∃ t, ∀ tp ∈ msg.topicPartitions, tp.topic = t
  | _ => True

end ServiceCall

/-- The frame holds what the schema of its key calls for: a whole request, with anything behind it,
or the header of a request that the broker does not serve, up to the length of the client id. -/
inductive RequestLaidOut : Bytes → Prop
  | served (call : ServiceCall) (short : call.Short) (rest : Bytes) :
    RequestLaidOut (call.frame ++ rest)
  | unserved (key version : Word 2) (correlationId : Word 4) (clientIdLength : Word 2)
    (rest : Bytes) (other : ApiKey.ofInt key = .other key) :
    RequestLaidOut (beInt 2 key ++ (beInt 2 version ++ (beInt 4 correlationId ++
      (beInt 2 clientIdLength ++ rest))))

/-! ## Performing them -/

/-- What a handler returned; of a Produce request, the offset assigned to each batch. -/
inductive ServiceResult where
  | apiVersions
  | produce (assigned : List (TopicPartition × ℤ))
  | listOffsets (parts : List ListOffsetsPartitionResponse)
  | fetch (parts : List FetchPartitionResponse)
  | metadata (info : MetadataInfo)
  | findCoordinator (info : CoordinatorInfo)
  | joinGroup (resp : JoinGroupResponse)
  | syncGroup (resp : SyncGroupResponse)
  | heartbeat (errorCode : ℤ)
  | leaveGroup (errorCode : ℤ)
  | offsetCommit (parts : List OffsetCommitPartitionResponse)
  | offsetFetch (parts : List OffsetFetchPartitionResponse)

def assignedOffsets (batches : List RecordBatch) (parts : List ProducePartitionResponse) :
    List (TopicPartition × ℤ) :=
  batches.zipWith (fun b p => (b.topicPartition, p.baseOffset)) parts

/-- No result if an append copies past its buffer, or if the router has no case for the request.
SOURCE: main.cpp:70-187 -/
def perform (env : GroupEnv) (b : Broker) : Request → Option (ServiceResult × Broker)
  | .apiVersions => some (.apiVersions, b)
  | .produce q =>
    let r := Broker.produceBatches q.batches (some b)
    r.2.map fun b' => (.produce (assignedOffsets q.batches r.1), b')
  | .listOffsets q => some (.listOffsets (q.partitions.map b.listOffsetsPartition), b)
  | .fetch q => some (.fetch (q.partitions.map b.fetchPartition), b)
  | .metadata requested =>
    let r := b.metadata requested
    some (.metadata r.1, r.2)
  | .findCoordinator _ => some (.findCoordinator b.findCoordinator, b)
  | .joinGroup q =>
    let r := b.groupMgr.joinGroup env q
    some (.joinGroup r.2, { b with groupMgr := r.1 })
  | .syncGroup q =>
    let r := b.groupMgr.syncGroup q
    some (.syncGroup r.2, { b with groupMgr := r.1 })
  | .heartbeat q =>
    let r := b.groupMgr.heartbeat env q
    some (.heartbeat r.2, { b with groupMgr := r.1 })
  | .leaveGroup q =>
    let r := b.groupMgr.leaveGroup env q
    some (.leaveGroup r.2, { b with groupMgr := r.1 })
  | .offsetCommit q =>
    let r := b.groupMgr.offsetCommit q
    some (.offsetCommit r.2, { b with groupMgr := r.1 })
  | .offsetFetch q => some (.offsetFetch (b.groupMgr.offsetFetch q), b)
  | .unsupported => none

/-! ## What the client is told -/

/-- A reply that lists partitions by topic tells exactly these results. -/
def TellsGrouped {α ε : Type} (parser : Parser (GroupedReply ε)) (cid : ℤ) (response : Bytes)
    (topicOf : α → Bytes) (entry : α → ε) (parts : List α) : Prop :=
  ∃ reply, Parser.message parser response = some reply ∧ reply.correlationId = cid ∧
    reply.errorCode = 0 ∧ Regrouped topicOf entry parts reply.topics

/-- A client that asked at this version and with this correlation id, and parses the response by
the schema of the version, gets the result. -/
def Understands (version : ℕ) (cid : ℤ) (response : Bytes) : ServiceResult → Prop
  | .apiVersions =>
    Parser.message (ApiVersionsReply.parser version) response = some (ApiVersionsReply.of cid)
  | .produce assigned => ProduceReply.Tells version cid response assigned
  | .listOffsets parts =>
    TellsGrouped (GroupedReply.listOffsets version) cid response (·.tp.topic)
      (ListOffsetsEntry.of version) parts
  | .fetch parts =>
    TellsGrouped (GroupedReply.fetch version) cid response (·.tp.topic) (FetchEntry.of version)
      parts
  | .metadata info =>
    Parser.message MetadataReply.parser response = some (MetadataReply.of cid info)
  | .findCoordinator info =>
    Parser.message (CoordinatorReply.parser version) response =
      some (CoordinatorReply.of version cid info)
  | .joinGroup resp =>
    Parser.message (JoinReply.parser version) response = some (JoinReply.of cid resp)
  | .syncGroup resp =>
    Parser.message (SyncReply.parser version) response = some (SyncReply.of cid resp)
  | .heartbeat errorCode =>
    Parser.message (ErrorReply.parser version) response = some (ErrorReply.of cid errorCode)
  | .leaveGroup errorCode =>
    Parser.message (ErrorReply.parser version) response = some (ErrorReply.of cid errorCode)
  | .offsetCommit parts =>
    TellsGrouped (GroupedReply.offsetCommit version) cid response (·.tp.topic)
      OffsetCommitEntry.of parts
  | .offsetFetch parts =>
    TellsGrouped (GroupedReply.offsetFetch version) cid response (·.tp.topic) OffsetFetchEntry.of
      parts

/-- The broker has served a call: the response is a message behind its length, the request that
the call denotes was performed, and its sender understands the response, as long as that fits the
buffer it is built in. -/
structure Exchange (env : GroupEnv) (b : Broker) (call : ServiceCall) (response : Bytes)
    (b' : Broker) : Prop where
  framed : ∃ body, response = wireBytes body
  served : ∃ request result, call.Denotes request ∧
    perform env b request = some (result, b') ∧
    (call.OneLayout → response.length ≤ 65536 →
      Understands call.version call.correlationId response result)

/-- A sequence of calls, each served in the state that the one before it left. -/
inductive Exchanges : Broker → List (GroupEnv × ServiceCall) → List Bytes → Broker → Prop
  | nil (b : Broker) : Exchanges b [] [] b
  | cons {b b₁ b' : Broker} {env : GroupEnv} {call : ServiceCall} {response : Bytes}
    {calls : List (GroupEnv × ServiceCall)} {responses : List Bytes}
    (first : Exchange env b call response b₁) (rest : Exchanges b₁ calls responses b') :
    Exchanges b ((env, call) :: calls) (response :: responses) b'

/-- The router as a connection calls it, at one moment after the other. -/
def routeInTurn (frame : Bytes) (s : Option Broker × List GroupEnv) :
    Bytes × Option Broker × List GroupEnv :=
  let r := Broker.route (s.2.headD .plain) frame s.1
  (r.1, r.2, s.2.tail)

end StrikeMQ.Interface
