import Mathlib.Data.List.AList
import StrikeMQ.Model.PartitionLog
import StrikeMQ.Model.ConsumerGroup
import StrikeMQ.Model.RequestRouter

/-!
# The broker behind the Kafka port

The sharded map from partitions to logs (`storage/sharded_log_map.h`) and the handlers that
`main.cpp` sets on the router. The state they work on is `none` once an append has copied past
its stack buffer, after which the program has no defined behaviour. Creating directories and
segment files is taken to succeed.
-/

set_option autoImplicit false

namespace StrikeMQ.Model

open StrikeMQ.Lib

/-- FNV-1a over the topic, one more round for the partition.
SOURCE: core/types.h:20-32 -/
def topicPartitionHash (tp : TopicPartition) : UInt64 :=
  let h := tp.topic.foldl (fun h c => (h ^^^ c.toUInt64) * 1099511628211) 14695981039346656037
  (h ^^^ UInt64.ofNat (toUInt32 tp.partition)) * 1099511628211

abbrev LogMap := AList fun _ : TopicPartition => PartitionLog

/-- The shards below `numShards` are the ones in use.
SOURCE: storage/sharded_log_map.h:19-126 -/
structure ShardedLogMap (numShards : ℕ) where
  shards : ℕ → LogMap := fun _ => ∅

namespace ShardedLogMap

variable {numShards : ℕ}

/-- SOURCE: storage/sharded_log_map.h:108, 117-119 -/
def shardFor (numShards : ℕ) (tp : TopicPartition) : ℕ :=
  (topicPartitionHash tp).toNat &&& (numShards - 1)

/-- SOURCE: storage/sharded_log_map.h:31-36 -/
def find (m : ShardedLogMap numShards) (tp : TopicPartition) : Option PartitionLog :=
  (m.shards (shardFor numShards tp)).lookup tp

/-- The map after the log stored for `tp` has become `log`. -/
def put (m : ShardedLogMap numShards) (tp : TopicPartition) (log : PartitionLog) :
    ShardedLogMap numShards :=
  { shards := Function.update m.shards (shardFor numShards tp)
      ((m.shards (shardFor numShards tp)).insert tp log) }

theorem find_put_self (m : ShardedLogMap numShards) (tp : TopicPartition) (log : PartitionLog) :
    (m.put tp log).find tp = some log := by
  show AList.lookup tp (Function.update m.shards _ _ _) = some log
  rw [Function.update_self, AList.lookup_insert]

theorem find_put_ne (m : ShardedLogMap numShards) {tp tp' : TopicPartition} (h : tp' ≠ tp)
    (log : PartitionLog) : (m.put tp log).find tp' = m.find tp' := by
  unfold find put
  by_cases hshard : shardFor numShards tp' = shardFor numShards tp
  · simp only [hshard, Function.update_self, AList.lookup_insert_ne h]
  · simp only [Function.update_of_ne hshard]

/-- The log of `tp`, the map that holds it, and whether it was created for this call.
SOURCE: storage/sharded_log_map.h:41-55 -/
def getOrCreate (m : ShardedLogMap numShards) (tp : TopicPartition) (logDir : Bytes)
    (segmentSize : ℕ) : PartitionLog × ShardedLogMap numShards × Bool :=
  match m.find tp with
  | some log => (log, m, false)
  | none =>
    let log := PartitionLog.create tp logDir segmentSize
    (log, m.put tp log, true)

/-- One round of `erase_if`, under the lock of one shard: the partitions that it erased and
the map without them. The order in which a shard is walked is not specified; nothing depends on
the order of the result.
SOURCE: storage/sharded_log_map.h:94-103 -/
def eraseShard (m : ShardedLogMap numShards) (pred : TopicPartition → PartitionLog → Bool)
    (i : ℕ) : List TopicPartition × ShardedLogMap numShards :=
  let erased := ((m.shards i).entries.filter fun e => pred e.1 e.2).map Sigma.fst
  let shard := erased.foldl (fun shard tp => shard.erase tp) (m.shards i)
  (erased, { shards := Function.update m.shards i shard })

/-- All the rounds of `erase_if`, one shard after the other.
SOURCE: storage/sharded_log_map.h:91-105 -/
def eraseIf (m : ShardedLogMap numShards) (pred : TopicPartition → PartitionLog → Bool) :
    List TopicPartition × ShardedLogMap numShards :=
  (List.range numShards).foldl (fun (erased, m) i =>
    let (tps, m') := m.eraseShard pred i
    (erased ++ tps, m')) ([], m)

/-- SOURCE: storage/sharded_log_map.h:81-85 -/
def erase (m : ShardedLogMap numShards) (tp : TopicPartition) : Bool × ShardedLogMap numShards :=
  let shard := m.shards (shardFor numShards tp)
  (decide (tp ∈ shard),
    { shards := Function.update m.shards (shardFor numShards tp) (shard.erase tp) })

/-- What `for_each` calls its function on, in this order.
SOURCE: storage/sharded_log_map.h:60-78 -/
def forEach (m : ShardedLogMap numShards) : List (TopicPartition × PartitionLog) :=
  (List.range numShards).flatMap fun i => (m.shards i).entries.map fun e => (e.1, e.2)

end ShardedLogMap

/-- SOURCE: main.cpp:52-55, 155 -/
structure Broker where
  config : BrokerConfig := {}
  shardedLogs : ShardedLogMap 64 := {}
  knownTopics : List Bytes := []
  groupMgr : ConsumerGroupManager := {}

namespace Broker

/-- A topic is registered with the first log created for it.
SOURCE: main.cpp:57-68 -/
def getOrCreateLog (b : Broker) (tp : TopicPartition) : PartitionLog × Broker :=
  let (log, logs, created) :=
    b.shardedLogs.getOrCreate tp b.config.logDir b.config.segmentSize
  let topics :=
    if created ∧ tp.topic ∉ b.knownTopics then b.knownTopics ++ [tp.topic] else b.knownTopics
  (log, { b with shardedLogs := logs, knownTopics := topics })

/-- SOURCE: http/http_server.cpp:688-694 -/
def removeTopic (b : Broker) (name : Bytes) : Broker :=
  { b with knownTopics := b.knownTopics.filter fun t => t ≠ name }

/-- SOURCE: main.cpp:75-84 -/
def produceBatch (batch : RecordBatch) :
    Option Broker → ProducePartitionResponse × Option Broker
  | none => ({ partition := batch.topicPartition.partition }, none)
  | some b =>
    let (log, b) := b.getOrCreateLog batch.topicPartition
    match log.append batch with
    | none => ({ partition := batch.topicPartition.partition }, none)
    | some (log', baseOffset) =>
      ({ partition := batch.topicPartition.partition, baseOffset := baseOffset, errorCode := 0 },
        some { b with shardedLogs := b.shardedLogs.put batch.topicPartition log' })

/-- SOURCE: main.cpp:73-86 -/
def produceBatches :
    List RecordBatch → Option Broker → List ProducePartitionResponse × Option Broker
  | [], s => ([], s)
  | batch :: rest, s =>
    let (resp, s') := produceBatch batch s
    let (resps, s'') := produceBatches rest s'
    (resp :: resps, s'')

/-- SOURCE: main.cpp:90-109 -/
def listOffsetsPartition (b : Broker) (pr : ListOffsetsPartition) :
    ListOffsetsPartitionResponse :=
  match b.shardedLogs.find pr.tp with
  | none => { tp := pr.tp, errorCode := 3 }
  | some log =>
    let offset :=
      if pr.timestamp = -2 then log.startOffset
      else if pr.timestamp = -1 then log.nextOffset
      else log.startOffset
    { tp := pr.tp, offset := offset, timestamp := -1 }

/-- SOURCE: main.cpp:116-129 -/
def fetchPartition (b : Broker) (pf : PartitionFetch) : FetchPartitionResponse :=
  match b.shardedLogs.find pf.tp with
  | none => { tp := pf.tp, errorCode := 3 }
  | some log =>
    let result := log.read pf.fetchOffset pf.partitionMaxBytes
    { tp := pf.tp, highWatermark := result.highWatermark, recordData := result.data }

/-- The address the broker tells its clients.
SOURCE: main.cpp:140, 161 -/
def advertisedHost (b : Broker) : Bytes :=
  if b.config.bindAddress = ascii "0.0.0.0" then ascii "127.0.0.1" else b.config.bindAddress

/-- SOURCE: main.cpp:133-152 -/
def metadata (requested : List Bytes) (b : Broker) : MetadataInfo × Broker :=
  let b := requested.foldl (fun b topic => (b.getOrCreateLog ⟨topic, 0⟩).2) b
  ({ brokerId := b.config.brokerId
     host := b.advertisedHost
     port := b.config.port
     topics := if requested = [] then b.knownTopics else requested
     numPartitions := 1 }, b)

/-- SOURCE: main.cpp:157-163 -/
def findCoordinator (b : Broker) : CoordinatorInfo :=
  { errorCode := 0
    nodeId := b.config.brokerId
    host := b.advertisedHost
    port := b.config.port }

/-- A group operation on the broker's group manager. -/
def onGroups {τ : Type} (b : Broker) (r : ConsumerGroupManager × τ) : τ × Broker :=
  (r.2, { b with groupMgr := r.1 })

/-- A handler on the states in which the program still has a meaning. -/
def onDefined {ρ τ : Type} (dflt : τ) (f : ρ → Broker → τ × Broker) (request : ρ) :
    Option Broker → τ × Option Broker
  | none => (dflt, none)
  | some b =>
    let (result, b') := f request b
    (result, some b')

/-- The router's handlers, with what a call takes from the clock, the random generator and
the order of the member maps.
SOURCE: main.cpp:70-187 -/
def handlers (env : GroupEnv) : Handlers (Option Broker) where
  produce := some fun q s => produceBatches q.batches s
  listOffsets := some (onDefined [] fun q b => (q.partitions.map b.listOffsetsPartition, b))
  fetch := some (onDefined [] fun q b => (q.partitions.map b.fetchPartition, b))
  metadata := some (onDefined {} metadata)
  findCoordinator := some (onDefined {} fun _ b => (b.findCoordinator, b))
  joinGroup := some (onDefined {} fun q b => b.onGroups (b.groupMgr.joinGroup env q))
  syncGroup := some (onDefined {} fun q b => b.onGroups (b.groupMgr.syncGroup q))
  heartbeat := some (onDefined 0 fun q b => b.onGroups (b.groupMgr.heartbeat env q))
  leaveGroup := some (onDefined 0 fun q b => b.onGroups (b.groupMgr.leaveGroup env q))
  offsetCommit := some (onDefined [] fun q b => b.onGroups (b.groupMgr.offsetCommit q))
  offsetFetch := some (onDefined [] fun q b => (b.groupMgr.offsetFetch q, b))

/-- The router as a connection calls it, with its response buffer. A decoder that reads beyond
the frame has no defined outcome.
SOURCE: network/tcp_server.cpp:244-249 -/
def route (env : GroupEnv) (frame : Bytes) (s : Option Broker) : Bytes × Option Broker :=
  match RequestRouter.routeRequest (handlers env) (Memory.ofBytes frame) frame.length 65536 s with
  | none => ([], none)
  | some out => (out.response, out.state)

end Broker

end StrikeMQ.Model
