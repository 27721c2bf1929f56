import StrikeMQ.Interface.KafkaService
import StrikeMQ.Model.TopicDeletion

/-!
# The files behind the logs

A log keeps its segments in a directory that is named after its partition, and a segment is a
mapping of a file. The model gives each segment bytes of its own. That is what the files hold as
long as no two segments are mappings of one file, and the file system takes the directories.
-/

set_option autoImplicit false

namespace StrikeMQ.Interface

open StrikeMQ.Lib StrikeMQ.Model

/-- The name of a partition's directory, from the log directory on. -/
def dirName (tp : TopicPartition) : Bytes :=
  tp.topic ++ 0x2d :: decimal tp.partition

/-- What file systems take as a name: at most 255 bytes, no slash and no NUL. -/
def IsFileName (name : Bytes) : Prop :=
  name.length ≤ 255 ∧ 0x2f ∉ name ∧ 0 ∉ name

instance (name : Bytes) : Decidable (IsFileName name) :=
  inferInstanceAs (Decidable (_ ∧ _ ∧ _))

/-- Each of the partitions can have a directory, and no two of them have one together. -/
structure OwnDirectories (tps : List TopicPartition) : Prop where
  named : ∀ tp ∈ tps, IsFileName (dirName tp)
  apart : ∀ tp ∈ tps, ∀ tp' ∈ tps, dirName tp = dirName tp' → tp = tp'

/-- The logs of the broker stand in directories that the file system takes, and no two of their
segments are mappings of one file. -/
structure FilesApart (b : Broker) : Prop where
  named : ∀ tp log, b.shardedLogs.find tp = some log →
    log.baseDir = partitionPath b.config.logDir tp ∧ IsFileName (dirName tp)
  apart : ∀ tp tp' log log', b.shardedLogs.find tp = some log →
    b.shardedLogs.find tp' = some log' → ∀ (i i' : ℕ) (s s' : LogSegment),
    log.segments[i]? = some s → log'.segments[i']? = some s' → s.path = s'.path →
    tp = tp' ∧ i = i'

namespace ServiceCall

/-- The partitions that the call may create a log for. -/
def partitions : ServiceCall → List TopicPartition
  | produce msg => msg.topicPartitions
  | metadata _ _ topics => topics.val.map fun t => ⟨t.val, 0⟩
  | _ => []

/-- What the call produces to a partition is at least one record. -/
def Fills : ServiceCall → Prop
  | produce msg => ∀ p ∈ msg.partitions, p.2.records ≠ []
  | _ => True

end ServiceCall

end StrikeMQ.Interface
