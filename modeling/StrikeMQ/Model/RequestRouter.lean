import StrikeMQ.Model.KafkaDecoder
import StrikeMQ.Model.KafkaEncoder

/-!
# The request router

`RequestRouter::route_request` decodes the frame completely before it calls a handler, so it
is the composition of two functions: `decodeRequest`, the only part that reads the frame, and
`dispatch`, which hands the decoded request to the handler that is set for it and encodes
what the handler returns. A handler works on a state of the program around the router.
-/

set_option autoImplicit false

namespace StrikeMQ.Model

open StrikeMQ.Lib

/-- A decoded request. `unsupported` stands for the keys that reach the end of the switch. -/
inductive Request where
  | apiVersions
  | produce (request : ProduceRequest)
  | listOffsets (request : ListOffsetsRequest)
  | fetch (request : FetchRequest)
  | metadata (requested : List Bytes)
  | findCoordinator (request : FindCoordinatorRequest)
  | joinGroup (request : JoinGroupRequest)
  | syncGroup (request : SyncGroupRequest)
  | heartbeat (request : HeartbeatRequest)
  | leaveGroup (request : LeaveGroupRequest)
  | offsetCommit (request : OffsetCommitRequest)
  | offsetFetch (request : OffsetFetchRequest)
  | unsupported
  deriving DecidableEq

/-- A decoded request with the part of its header that the response depends on. -/
structure RoutedRequest where
  correlationId : ℤ
  apiVersion : ℤ
  body : Request
  deriving DecidableEq

/-- The handlers that `RequestRouter` is set up with; each may be missing.
SOURCE: protocol/kafka_codec.h:167-204 -/
structure Handlers (σ : Type) where
  produce : Option (ProduceRequest → σ → List ProducePartitionResponse × σ) := none
  fetch : Option (FetchRequest → σ → List FetchPartitionResponse × σ) := none
  metadata : Option (List Bytes → σ → MetadataInfo × σ) := none
  listOffsets : Option (ListOffsetsRequest → σ → List ListOffsetsPartitionResponse × σ) := none
  findCoordinator : Option (FindCoordinatorRequest → σ → CoordinatorInfo × σ) := none
  joinGroup : Option (JoinGroupRequest → σ → JoinGroupResponse × σ) := none
  syncGroup : Option (SyncGroupRequest → σ → SyncGroupResponse × σ) := none
  heartbeat : Option (HeartbeatRequest → σ → ℤ × σ) := none
  leaveGroup : Option (LeaveGroupRequest → σ → ℤ × σ) := none
  offsetCommit : Option (OffsetCommitRequest → σ → List OffsetCommitPartitionResponse × σ) := none
  offsetFetch : Option (OffsetFetchRequest → σ → List OffsetFetchPartitionResponse × σ) := none

/-- What routing one frame amounts to: the request a handler was called with, if one was, the
state it left and the bytes of the response, none of which stands for the size 0. -/
structure Outcome (σ : Type) where
  call : Option Request
  state : σ
  response : Bytes
  deriving DecidableEq

namespace RequestRouter

open BinaryReader KafkaDecoder KafkaEncoder

/-- SOURCE: protocol/kafka_codec.cpp:630-636 -/
def decodeMetadataTopics : ReaderM (List Bytes) := do
  let numTopics ← readInt32
  MemReader.times readStdString numTopics.toNat

/-- The part of the switch that reads the frame. The Metadata body is read only if there is
a handler for it.
SOURCE: protocol/kafka_codec.cpp:602-712 -/
def decodeBody (metadataHandler : Bool) (h : RequestHeader) : ReaderM Request :=
  match h.apiKey with
  | .produce => do return .produce (← decodeProduce h)
  | .listOffsets => do return .listOffsets (← decodeListOffsets h)
  | .fetch => do return .fetch (← decodeFetch h)
  | .metadata => do
    if metadataHandler then return .metadata (← decodeMetadataTopics)
    else return .unsupported
  | .findCoordinator => do return .findCoordinator (← decodeFindCoordinator h)
  | .joinGroup => do return .joinGroup (← decodeJoinGroup h)
  | .syncGroup => do return .syncGroup (← decodeSyncGroup h)
  | .heartbeat => do return .heartbeat (← decodeHeartbeat h)
  | .leaveGroup => do return .leaveGroup (← decodeLeaveGroup h)
  | .offsetCommit => do return .offsetCommit (← decodeOffsetCommit h)
  | .offsetFetch => do return .offsetFetch (← decodeOffsetFetch h)
  | .apiVersions => pure .unsupported
  | .other _ => pure .unsupported

/-- The first reader only peeks; ApiVersions is answered from what it saw, and everything
else is decoded by a second reader from the start of the frame.
SOURCE: protocol/kafka_codec.cpp:586-601 -/
def decodeRequest (metadataHandler : Bool) : ReaderM RoutedRequest := do
  let start ← MemReader.get
  let apiKey ← readInt16
  let apiVersion ← readInt16
  let correlationId ← readInt32
  if ApiKey.ofInt apiKey = .apiVersions then return ⟨correlationId, apiVersion, .apiVersions⟩
  else
    MemReader.set start
    let h ← decodeHeader
    let body ← decodeBody metadataHandler h
    return ⟨h.correlationId, h.apiVersion, body⟩

variable {σ : Type}

/-- The call of a handler and the encoding of what it returned; without a handler the
source breaks out of the switch and returns 0. -/
def call {ρ τ : Type} (handler : Option (ρ → σ → τ × σ)) (body : Request) (request : ρ)
    (encode : τ → Bytes) (s : σ) : Outcome σ :=
  match handler with
  | none => ⟨none, s, []⟩
  | some f =>
    let (result, s') := f request s
    ⟨some body, s', encode result⟩

/-- The topic of the first batch, under which all the responses of a Produce request go.
SOURCE: protocol/kafka_codec.cpp:607 -/
def produceTopic (request : ProduceRequest) : Bytes :=
  match request.batches with
  | [] => []
  | b :: _ => b.topicPartition.topic

/-- SOURCE: protocol/kafka_codec.cpp:595-597, 602-713 -/
def dispatch (hs : Handlers σ) (cap : ℕ) (r : RoutedRequest) (s : σ) : Outcome σ :=
  let cid := r.correlationId
  let v := r.apiVersion
  match r.body with
  | .apiVersions => ⟨none, s, encodeApiVersionsResponse cap cid v⟩
  | .produce q =>
    call hs.produce r.body q (fun res => encodeProduceResponse cap cid res (produceTopic q)) s
  | .listOffsets q =>
    call hs.listOffsets r.body q (fun res => encodeListOffsetsResponse cap cid res v) s
  | .fetch q => call hs.fetch r.body q (fun res => encodeFetchResponse cap cid res v) s
  | .metadata q => call hs.metadata r.body q (encodeMetadataResponse cap cid) s
  | .findCoordinator q =>
    call hs.findCoordinator r.body q (encodeFindCoordinatorResponse cap cid v) s
  | .joinGroup q => call hs.joinGroup r.body q (encodeJoinGroupResponse cap cid v) s
  | .syncGroup q => call hs.syncGroup r.body q (encodeSyncGroupResponse cap cid v) s
  | .heartbeat q => call hs.heartbeat r.body q (encodeHeartbeatResponse cap cid v) s
  | .leaveGroup q => call hs.leaveGroup r.body q (encodeLeaveGroupResponse cap cid v) s
  | .offsetCommit q => call hs.offsetCommit r.body q (encodeOffsetCommitResponse cap cid v) s
  | .offsetFetch q =>
    call hs.offsetFetch r.body q (fun res => encodeOffsetFetchResponse cap cid v res 0) s
  | .unsupported => ⟨none, s, []⟩

/-- Routes the frame of `len` bytes at address 0 of the memory. There is no outcome if the
decoders read an address at which nothing is mapped.
SOURCE: protocol/kafka_codec.cpp:585-714 -/
def routeRequest (hs : Handlers σ) (m : Memory) (len cap : ℕ) (s : σ) : Option (Outcome σ) :=
  ((decodeRequest hs.metadata.isSome).run m { length := len }).map fun r =>
    dispatch hs cap r.1 s

end RequestRouter

end StrikeMQ.Model
