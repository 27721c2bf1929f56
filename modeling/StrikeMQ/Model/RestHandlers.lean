import Mathlib.Data.List.Sort
import StrikeMQ.Model.MessagePeek
import StrikeMQ.Model.TopicDeletion

/-!
# The handlers of the REST interface

The handlers that `HttpRoutes`, `MessagePeek` and `TopicDeletion` do not have, and all eight of
them together on the broker. They only look at the broker and write what they see. An unordered
map is walked in the order of its entries, which the source leaves open. What a handler takes
from the clock and from the part of the configuration that is printed and not used comes with
its environment.
-/

set_option autoImplicit false

namespace StrikeMQ.Model

open StrikeMQ.Lib

/-- What a request takes from outside the broker. -/
structure RestEnv where
  now : ℤ
  uptimeSeconds : ℤ := 0
  ioThreads : ℤ := 1
  httpPort : ℤ := 8080

/-- SOURCE: storage/consumer_group.h:18-27 -/
def GroupState.stateName : GroupState → Bytes
  | .empty => ascii "Empty"
  | .preparingRebalance => ascii "PreparingRebalance"
  | .completingRebalance => ascii "CompletingRebalance"
  | .stable => ascii "Stable"
  | .dead => ascii "Dead"

/-- SOURCE: storage/consumer_group.h:52-57 -/
structure GroupInfo where
  groupId : Bytes
  state : Bytes
  generationId : ℤ
  memberCount : ℕ
  deriving DecidableEq

/-- SOURCE: storage/consumer_group.h:59-68 -/
structure GroupDetail where
  groupId : Bytes
  state : Bytes
  generationId : ℤ
  protocolType : Bytes
  protocolName : Bytes
  leaderId : Bytes
  members : List MemberMetadata
  committedOffsets : List (TopicPartition × ℤ)
  deriving DecidableEq

namespace ConsumerGroupManager

/-- SOURCE: storage/consumer_group.h:72-79 -/
def listGroups (mgr : ConsumerGroupManager) : List GroupInfo :=
  mgr.groups.entries.map fun e =>
    ⟨e.1, e.2.state.stateName, e.2.generationId, e.2.members.entries.length⟩

/-- SOURCE: storage/consumer_group.h:81-96 -/
def getGroup (mgr : ConsumerGroupManager) (groupId : Bytes) : Option GroupDetail := do
  let g ← mgr.groups.lookup groupId
  return {
    groupId := g.groupId
    state := g.state.stateName
    generationId := g.generationId
    protocolType := g.protocolType
    protocolName := g.protocolName
    leaderId := g.leaderId
    members := g.members.entries.map fun e => e.2
    committedOffsets := g.committedOffsets.entries.map fun e => (e.1, e.2) }

end ConsumerGroupManager

/-- What is printed of one topic: its partitions, counted as an `int32_t`, and the offsets that
they span.
SOURCE: http/http_server.cpp:582-586 -/
structure TopicInfo where
  partitions : ℤ := 0
  minOffset : ℤ := 0
  maxOffset : ℤ := 0
  deriving DecidableEq

namespace HttpServer

/-- One partition that `for_each` calls its function on.
SOURCE: http/http_server.cpp:589-601 -/
def countPartition (topics : AList fun _ : Bytes => TopicInfo)
    (entry : TopicPartition × PartitionLog) : AList fun _ : Bytes => TopicInfo :=
  let info := (topics.lookup entry.1.topic).getD {}
  let partitions := toInt32 (info.partitions + 1)
  let start := entry.2.startOffset
  let stop := entry.2.nextOffset
  topics.insert entry.1.topic
    (if partitions = 1 then ⟨partitions, start, stop⟩
      else ⟨partitions, min info.minOffset start, max info.maxOffset stop⟩)

/-- SOURCE: http/http_server.cpp:606-612 -/
def writeTopic (j : JsonWriter) (name : Bytes) (info : TopicInfo) : JsonWriter :=
  let j := (j.objectBegin.key (ascii "name")).string name
  let j := (j.key (ascii "partitions")).number info.partitions
  let j := (j.key (ascii "start_offset")).number info.minOffset
  ((j.key (ascii "end_offset")).number info.maxOffset).objectEnd

/-- SOURCE: http/http_server.cpp:654-660 -/
def writePartition (j : JsonWriter) (tp : TopicPartition) (log : PartitionLog) : JsonWriter :=
  let j := (j.objectBegin.key (ascii "partition")).number tp.partition
  let j := (j.key (ascii "start_offset")).number log.startOffset
  ((j.key (ascii "end_offset")).number log.nextOffset).objectEnd

/-- SOURCE: http/http_server.cpp:1037-1043 -/
def writeGroup (j : JsonWriter) (g : GroupInfo) : JsonWriter :=
  let j := (j.objectBegin.key (ascii "group_id")).string g.groupId
  let j := (j.key (ascii "state")).string g.state
  let j := (j.key (ascii "generation_id")).number g.generationId
  ((j.key (ascii "member_count")).number g.memberCount).objectEnd

/-- SOURCE: http/http_server.cpp:1071-1077 -/
def writeMember (j : JsonWriter) (m : MemberMetadata) : JsonWriter :=
  let j := (j.objectBegin.key (ascii "member_id")).string m.memberId
  let j := (j.key (ascii "client_id")).string m.clientId
  let j := (j.key (ascii "session_timeout_ms")).number m.sessionTimeoutMs
  ((j.key (ascii "rebalance_timeout_ms")).number m.rebalanceTimeoutMs).objectEnd

/-- SOURCE: http/http_server.cpp:1082-1085 -/
def writeOffset (j : JsonWriter) (tp : TopicPartition) (off : ℤ) : JsonWriter :=
  (j.key (tp.topic ++ ascii "-" ++ decimal tp.partition)).number off

/-- SOURCE: http/http_server.cpp:1060-1089 -/
def groupResponse (d : GroupDetail) : HttpResponse where
  body :=
    let j := (({} : JsonWriter).objectBegin.key (ascii "group_id")).string d.groupId
    let j := (j.key (ascii "state")).string d.state
    let j := (j.key (ascii "generation_id")).number d.generationId
    let j := (j.key (ascii "protocol_type")).string d.protocolType
    let j := (j.key (ascii "protocol_name")).string d.protocolName
    let j := (j.key (ascii "leader_id")).string d.leaderId
    let j := (d.members.foldl writeMember (j.key (ascii "members")).arrayBegin).arrayEnd
    let j := (j.key (ascii "committed_offsets")).objectBegin
    let j := (d.committedOffsets.foldl (fun j e => writeOffset j e.1 e.2) j).objectEnd
    j.objectEnd.buf

end HttpServer

namespace Broker

/-- SOURCE: http/http_server.cpp:553-578 -/
def handleGetBroker (env : RestEnv) (b : Broker) : HttpResponse where
  body :=
    let j := (({} : JsonWriter).objectBegin.key (ascii "version")).string (ascii "0.1.5")
    let j := (j.key (ascii "broker_id")).number b.config.brokerId
    let j := (j.key (ascii "uptime_seconds")).number env.uptimeSeconds
    let j := (j.key (ascii "port")).number b.config.port
    let j := (j.key (ascii "http_port")).number env.httpPort
    let j := (j.key (ascii "io_threads")).number env.ioThreads
    let j := (j.key (ascii "platform")).string (ascii "Linux (epoll)")
    let j := (j.key (ascii "log_dir")).string b.config.logDir
    let j := (j.key (ascii "segment_size")).number b.config.segmentSize
    j.objectEnd.buf

/-- SOURCE: http/http_server.cpp:580-615 -/
def handleGetTopics (b : Broker) : HttpResponse where
  body :=
    let topics := b.shardedLogs.forEach.foldl HttpServer.countPartition ∅
    (topics.entries.foldl (fun j e => HttpServer.writeTopic j e.1 e.2)
      ({} : JsonWriter).arrayBegin).arrayEnd.buf

/-- SOURCE: http/http_server.cpp:617-664 -/
def handleGetTopic (name : Bytes) (b : Broker) : HttpResponse :=
  let parts := b.shardedLogs.forEach.filter fun e => e.1.topic = name
  if parts = [] then
    HttpServer.errorResponse 404 (ascii "Not Found") (ascii "Topic not found")
  else
    let sorted := parts.insertionSort fun x y => x.1.partition ≤ y.1.partition
    let j := (({} : JsonWriter).objectBegin.key (ascii "name")).string name
    let j := (j.key (ascii "partitions")).arrayBegin
    let j := (sorted.foldl (fun j e => HttpServer.writePartition j e.1 e.2) j).arrayEnd
    { body := j.objectEnd.buf }

/-- What deleting a topic does to the broker; that it also removes directories is in
`TopicDeletion`.
SOURCE: http/http_server.cpp:666-701 -/
def handleDeleteTopic (name : Bytes) (req : HttpRequest) (b : Broker) : HttpResponse × Broker :=
  let (resp, s) := Storage.handleDeleteTopic name req { broker := b }
  (resp, s.broker)

/-- SOURCE: http/http_server.cpp:1033-1047 -/
def handleGetGroups (b : Broker) : HttpResponse where
  body :=
    (b.groupMgr.listGroups.foldl HttpServer.writeGroup ({} : JsonWriter).arrayBegin).arrayEnd.buf

/-- SOURCE: http/http_server.cpp:1049-1090 -/
def handleGetGroup (id : Bytes) (b : Broker) : HttpResponse :=
  match b.groupMgr.getGroup id with
  | none => HttpServer.errorResponse 404 (ascii "Not Found") (ascii "Consumer group not found")
  | some d => HttpServer.groupResponse d

/-- A handler that leaves the broker as it is. -/
def answer (f : Broker → HttpResponse) : HttpRequest → Option Broker → HttpResponse × Option Broker :=
  onDefined {} fun _ b => (f b, b)

/-- SOURCE: http/http_server.h:132-139 -/
def restHandlers (env : RestEnv) : HttpHandlers (Option Broker) where
  getBroker := answer (handleGetBroker env)
  getTopics := answer handleGetTopics
  getTopic name := answer (handleGetTopic name)
  deleteTopic name := onDefined {} (handleDeleteTopic name)
  getMessages := handleGetMessages
  postMessages := handlePostMessages env.now
  getGroups := answer handleGetGroups
  getGroup id := answer (handleGetGroup id)

/-- The REST interface's router on the broker. -/
def restRoute (env : RestEnv) : HttpRequest → Option Broker → HttpResponse × Option Broker :=
  HttpServer.routeRequest (restHandlers env)

end Broker

end StrikeMQ.Model
