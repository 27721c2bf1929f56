import StrikeMQ.Model.Broker

/-!
# Interleavings of creating and deleting topics

Produce, metadata and the REST interface create partitions while `DELETE` requests remove
topics. Each critical section is one step. A creation is a single one: it registers the topic
while it holds the lock of the partition's shard. A deletion goes through the shards one after
the other, each under its own lock, and takes the name off the list of topics at the end, under
the lock of that list; in between, anything else may happen.
-/

set_option autoImplicit false

namespace StrikeMQ.Interface

open StrikeMQ.Lib StrikeMQ.Model

/-- The sharded map holds a partition of the topic. -/
def HoldsTopic {numShards : ℕ} (m : ShardedLogMap numShards) (name : Bytes) : Prop :=
  ∃ i < numShards, ∃ tp ∈ (m.shards i).keys, tp.topic = name

instance {numShards : ℕ} (m : ShardedLogMap numShards) (name : Bytes) :
    Decidable (HoldsTopic m name) :=
  inferInstanceAs (Decidable (∃ i < numShards, ∃ tp ∈ (m.shards i).keys, tp.topic = name))

/-- A deletion in progress: the shard it comes to next and what it has erased so far. -/
structure Deletion where
  name : Bytes
  nextShard : ℕ := 0
  erased : List TopicPartition := []

structure TopicRegistry where
  broker : Broker
  deletions : List Deletion := []

inductive RegistryStep where
  | getOrCreate (tp : TopicPartition)
  | beginDelete (name : Bytes)
  | eraseShard (i : ℕ)
  | finishDelete (i : ℕ)
  deriving DecidableEq

namespace TopicRegistry

/-- One shard of the deletion `d`, which is the `i`th in progress.
SOURCE: http/http_server.cpp:668-670 -/
def eraseNext (r : TopicRegistry) (i : ℕ) (d : Deletion) : TopicRegistry :=
  let (erased, logs) :=
    r.broker.shardedLogs.eraseShard (fun tp _ => tp.topic = d.name) d.nextShard
  { broker := { r.broker with shardedLogs := logs }
    deletions :=
      r.deletions.set i { d with nextShard := d.nextShard + 1, erased := d.erased ++ erased } }

/-- The end of the deletion `d`, which is the `i`th in progress: one that has erased nothing
answers that there is no such topic.
SOURCE: http/http_server.cpp:672-694 -/
def finish (r : TopicRegistry) (i : ℕ) (d : Deletion) : TopicRegistry where
  broker := if d.erased = [] then r.broker else r.broker.removeTopic d.name
  deletions := r.deletions.eraseIdx i

/-- One critical section; `none` if the deletion is not at that point. -/
def step (r : TopicRegistry) : RegistryStep → Option TopicRegistry
  | .getOrCreate tp => some { r with broker := (r.broker.getOrCreateLog tp).2 }
  | .beginDelete name => some { r with deletions := r.deletions ++ [{ name := name }] }
  | .eraseShard i =>
    match r.deletions[i]? with
    | none => none
    | some d => if d.nextShard < 64 then some (r.eraseNext i d) else none
  | .finishDelete i =>
    match r.deletions[i]? with
    | none => none
    | some d => if d.nextShard = 64 then some (r.finish i d) else none

/-- The state after the given steps, from a broker without topics. -/
def run (config : BrokerConfig) (steps : List RegistryStep) : Option TopicRegistry :=
  steps.foldlM step { broker := { config := config } }

/-- Every topic that has a partition is listed. -/
def Listed (r : TopicRegistry) : Prop :=
  ∀ name, HoldsTopic r.broker.shardedLogs name → name ∈ r.broker.knownTopics

/-- The listed topics are those that have a partition. -/
def Agrees (r : TopicRegistry) : Prop :=
  ∀ name, name ∈ r.broker.knownTopics ↔ HoldsTopic r.broker.shardedLogs name

/-- If the `i`th deletion is about to take its name off the list, the topic has no partition. -/
def RemovesAbsent (r : TopicRegistry) (i : ℕ) : Prop :=
  ∀ d, r.deletions[i]? = some d → d.erased ≠ [] → ¬ HoldsTopic r.broker.shardedLogs d.name

end TopicRegistry

end StrikeMQ.Interface
