import StrikeMQ.Model.Broker

/-!
# A directory of logs

What the sharded map is for, without shards: one map from partitions to logs. `Call.after` says
what each call makes of the map, and `Call.Answers` what it may return; where a call walks the
map the order is left open, but nothing may be met twice or left out.

A log is handed out by reference, and its owner may change it while it is in the map; such a
change is a call too.
-/

set_option autoImplicit false

namespace StrikeMQ.Interface

open StrikeMQ.Lib StrikeMQ.Model

/-- The log of each partition that has one. -/
abbrev Directory := TopicPartition → Option PartitionLog

inductive Call where
  | find (tp : TopicPartition)
  | getOrCreate (tp : TopicPartition) (logDir : Bytes) (segmentSize : ℕ)
  | erase (tp : TopicPartition)
  | eraseIf (pred : TopicPartition → PartitionLog → Bool)
  | forEach
  | change (tp : TopicPartition) (f : PartitionLog → PartitionLog)

/-- What a call returns; `announced` are the partitions that `on_new_topic` was called with. -/
inductive Result where
  | found (log : Option PartitionLog)
  | opened (log : PartitionLog) (announced : List TopicPartition)
  | erased (present : Bool)
  | removed (tps : List TopicPartition)
  | visited (entries : List (TopicPartition × PartitionLog))
  | changed

namespace Call

/-- A partition has a log from its creation until it is erased. -/
def after (d : Directory) : Call → Directory
  | find _ => d
  | getOrCreate tp logDir segmentSize =>
    match d tp with
    | some _ => d
    | none => Function.update d tp (some (PartitionLog.create tp logDir segmentSize))
  | erase tp => Function.update d tp none
  | eraseIf pred => fun tp => (d tp).filter fun log => !pred tp log
  | forEach => d
  | change tp f => Function.update d tp ((d tp).map f)

def Answers (d : Directory) : Call → Result → Prop
  | find tp, .found log => log = d tp
  | getOrCreate tp logDir segmentSize, .opened log announced =>
    match d tp with
    | some present => log = present ∧ announced = []
    | none => log = PartitionLog.create tp logDir segmentSize ∧ announced = [tp]
  | erase tp, .erased present => present = (d tp).isSome
  | eraseIf pred, .removed tps =>
    tps.Nodup ∧ ∀ tp, tp ∈ tps ↔ ∃ log, d tp = some log ∧ pred tp log
  | forEach, .visited entries =>
    (entries.map Prod.fst).Nodup ∧ ∀ tp log, (tp, log) ∈ entries ↔ d tp = some log
  | change _ _, .changed => True
  | _, _ => False

end Call

/-- The map after a sequence of calls. -/
def Directory.run (d : Directory) (calls : List Call) : Directory :=
  calls.foldl Call.after d

/-- The results of a sequence of calls, each against the map as the calls before left it. -/
def Directory.Agrees : Directory → List Call → List Result → Prop
  | _, [], [] => True
  | d, c :: cs, r :: rs => c.Answers d r ∧ Directory.Agrees (c.after d) cs rs
  | _, _, _ => False

/-! ## The same calls on the sharded map -/

variable {numShards : ℕ}

def ShardedLogMap.call (m : ShardedLogMap numShards) : Call → Result × ShardedLogMap numShards
  | .find tp => (.found (m.find tp), m)
  | .getOrCreate tp logDir segmentSize =>
    let (log, m', created) := m.getOrCreate tp logDir segmentSize
    (.opened log (if created then [tp] else []), m')
  | .erase tp =>
    let (present, m') := m.erase tp
    (.erased present, m')
  | .eraseIf pred =>
    let (tps, m') := m.eraseIf pred
    (.removed tps, m')
  | .forEach => (.visited m.forEach, m)
  | .change tp f =>
    match m.find tp with
    | none => (.changed, m)
    | some log => (.changed, m.put tp (f log))

def ShardedLogMap.runCalls (m : ShardedLogMap numShards) :
    List Call → List Result × ShardedLogMap numShards
  | [] => ([], m)
  | c :: cs =>
    let (r, m') := ShardedLogMap.call m c
    let (rs, m'') := ShardedLogMap.runCalls m' cs
    (r :: rs, m'')

end StrikeMQ.Interface
