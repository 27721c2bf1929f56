import StrikeMQ.Lib.Decimal
import StrikeMQ.Interface.StoredFiles
import StrikeMQ.Analysis.ShardedDirectory

/-!
# The directories of the partitions

A partition's directory is named after its topic and its number, with a dash between them. The
number of a partition may be negative and then starts with a dash of its own, which a topic may
end with as well: the partition `-k` of a topic and the partition `k` of the topic that has one
more dash at its end are kept in one directory. There are no other two partitions with one path.

A topic may have slashes in it. Then its directory stands below others, and a deletion removes a
directory with everything below it. So what a deletion removes are the directories that its
topic's partitions have the paths of, and those of partitions below them.
-/

set_option autoImplicit false

namespace StrikeMQ.Analysis.PartitionDirectories

open StrikeMQ.Lib StrikeMQ.Model StrikeMQ.Interface
open StrikeMQ.Analysis.ShardedDirectory (eraseRounds eraseRounds_succ mem_eraseShard_topic)

/-! ## Names -/

theorem partitionPath_eq (logDir : Bytes) (tp : TopicPartition) :
    partitionPath logDir tp = logDir ++ 0x2f :: dirName tp := by
  simp [partitionPath, dirName, ascii]

theorem baseDir_create (tp : TopicPartition) (logDir : Bytes) (segmentSize : ℕ) :
    (PartitionLog.create tp logDir segmentSize).baseDir = partitionPath logDir tp :=
  rfl

/-- The second partition has the number of the first without its sign, and the topic of the
first with a dash behind it. -/
def TakesSign (tp tp' : TopicPartition) : Prop :=
  tp.partition < 0 ∧ tp' = ⟨tp.topic ++ [0x2d], -tp.partition⟩

instance (tp tp' : TopicPartition) : Decidable (TakesSign tp tp') :=
  inferInstanceAs (Decidable (_ ∧ _))

/-- INTERNAL: a list is divided at the last place where some byte stands. -/
theorem append_last_inj {c : UInt8} {xs ys zs ws : Bytes} (hzs : c ∉ zs) (hws : c ∉ ws) :
    xs ++ c :: zs = ys ++ c :: ws ↔ xs = ys ∧ zs = ws := by
  have hnil : ∀ {vs zs ws : Bytes}, c ∉ zs → c :: zs = vs ++ c :: ws → vs = [] := by
    intro vs zs ws hzs h
    cases vs with
    | nil => rfl
    | cons v vs =>
      rw [List.cons_append, List.cons.injEq] at h
      exact absurd (h.2 ▸ List.mem_append_right _ List.mem_cons_self) hzs
  constructor
  · intro h
    have hfront : xs = ys := by
      rcases List.append_eq_append_iff.mp h with ⟨vs, hys, hv⟩ | ⟨vs, hxs, hv⟩
      · rw [hys, hnil hzs hv, List.append_nil]
      · rw [hxs, hnil hws hv, List.append_nil]
    rw [hfront, List.append_cancel_left_eq, List.cons.injEq] at h
    exact ⟨hfront, h.2⟩
  · rintro ⟨rfl, rfl⟩
    rfl

theorem append_digits_inj {xs ys : Bytes} {n k : ℕ} :
    xs ++ 0x2d :: digitBytes n = ys ++ 0x2d :: digitBytes k ↔ xs = ys ∧ n = k := by
  rw [append_last_inj (dash_notMem_digitBytes n) (dash_notMem_digitBytes k),
    digitBytes_injective.eq_iff]

theorem dirName_of_nonneg (topic : Bytes) {k : ℤ} (h : 0 ≤ k) :
    dirName ⟨topic, k⟩ = topic ++ 0x2d :: digitBytes k.natAbs := by
  rw [dirName, decimal_of_nonneg h]

theorem dirName_of_neg (topic : Bytes) {k : ℤ} (h : k < 0) :
    dirName ⟨topic, k⟩ = topic ++ [0x2d] ++ 0x2d :: digitBytes k.natAbs := by
  rw [dirName, decimal_of_neg h, List.append_assoc, List.singleton_append]

theorem takesSign_iff {topic topic' : Bytes} {k k' : ℤ} :
    TakesSign ⟨topic, k⟩ ⟨topic', k'⟩ ↔ k < 0 ∧ topic ++ [0x2d] = topic' ∧ k' = -k := by
  rw [TakesSign, TopicPartition.mk.injEq, eq_comm (a := topic')]

/-- INTERNAL: **two partitions have one name exactly if the dash of the one's sign ends the
other's topic.** -/
theorem dirName_eq_iff {tp tp' : TopicPartition} :
    dirName tp = dirName tp' ↔ tp = tp' ∨ TakesSign tp tp' ∨ TakesSign tp' tp := by
  obtain ⟨topic, k⟩ := tp
  obtain ⟨topic', k'⟩ := tp'
  rw [TopicPartition.mk.injEq, takesSign_iff, takesSign_iff]
  -- the digits come after the last dash, which is the sign's if there is one
  rcases lt_or_ge k 0 with hk | hk <;> rcases lt_or_ge k' 0 with hk' | hk'
  · have hnum : k.natAbs = k'.natAbs ↔ k = k' := by omega
    have hno : ¬ k' = -k ∧ ¬ k = -k' := by omega
    rw [dirName_of_neg topic hk, dirName_of_neg topic' hk', append_digits_inj,
      List.append_cancel_right_eq, hnum]
    tauto
  · have hnum : k.natAbs = k'.natAbs ↔ k' = -k := by omega
    have hno : k ≠ k' ∧ ¬ k' < 0 := by omega
    rw [dirName_of_neg topic hk, dirName_of_nonneg topic' hk', append_digits_inj, hnum]
    tauto
  · have hnum : k.natAbs = k'.natAbs ↔ k = -k' := by omega
    have hno : k ≠ k' ∧ ¬ k < 0 := by omega
    rw [dirName_of_nonneg topic hk, dirName_of_neg topic' hk', append_digits_inj, hnum,
      eq_comm (a := topic)]
    tauto
  · have hnum : k.natAbs = k'.natAbs ↔ k = k' := by omega
    have hno : ¬ k < 0 ∧ ¬ k' < 0 := by omega
    rw [dirName_of_nonneg topic hk, dirName_of_nonneg topic' hk', append_digits_inj, hnum]
    tauto

theorem partitionPath_eq_iff (logDir : Bytes) {tp tp' : TopicPartition} :
    partitionPath logDir tp = partitionPath logDir tp' ↔
      tp = tp' ∨ TakesSign tp tp' ∨ TakesSign tp' tp := by
  rw [partitionPath_eq, partitionPath_eq, List.append_cancel_left_eq, List.cons.injEq,
    dirName_eq_iff]
  exact and_iff_right rfl

/-! ## Places -/

/-- INTERNAL: a name that ends with a digit is neither empty nor made of dots. -/
theorem dirName_plain (tp : TopicPartition) :
    dirName tp ≠ [] ∧ dirName tp ≠ ascii "." ∧ dirName tp ≠ ascii ".." := by
  have hdash : (0x2d : UInt8) ∈ dirName tp :=
    List.mem_append_right _ List.mem_cons_self
  refine ⟨List.ne_nil_of_mem hdash, ?_, ?_⟩
  · intro h
    rw [h] at hdash
    exact absurd hdash (by decide)
  · intro h
    rw [h] at hdash
    exact absurd hdash (by decide)

theorem slash_notMem_decimal (k : ℤ) : (0x2f : UInt8) ∉ decimal k := by
  have hdigits : (0x2f : UInt8) ∉ digitBytes k.natAbs := by
    intro hmem
    exact absurd (digit_range hmem).1 (by decide)
  rcases lt_or_ge k 0 with hk | hk
  · rw [decimal_of_neg hk, List.mem_cons, not_or]
    exact ⟨by decide, hdigits⟩
  · rwa [decimal_of_nonneg hk]

theorem slash_notMem_dirName {tp : TopicPartition} (h : (0x2f : UInt8) ∉ tp.topic) :
    (0x2f : UInt8) ∉ dirName tp := by
  rw [dirName, List.mem_append, List.mem_cons, not_or, not_or]
  exact ⟨h, by decide, slash_notMem_decimal tp.partition⟩

/-- Where the directory of a partition stands. -/
def place (s : Storage) (tp : TopicPartition) : Location :=
  resolve s.cwd (partitionPath s.broker.config.logDir tp)

/-- INTERNAL: the directory of a topic without a slash stands in the log directory. -/
theorem place_eq (s : Storage) {tp : TopicPartition} (h : (0x2f : UInt8) ∉ tp.topic) :
    place s tp = resolve s.cwd (s.broker.config.logDir ++ [0x2f]) ++ [dirName tp] := by
  rw [place, partitionPath_eq, resolve_append_name _ _ (slash_notMem_dirName h) (dirName_plain tp)]

/-- INTERNAL: of two directories in the log directory, neither stands below the other. -/
theorem place_isPrefix_iff (s : Storage) {tp tp' : TopicPartition}
    (h : (0x2f : UInt8) ∉ tp.topic) (h' : (0x2f : UInt8) ∉ tp'.topic) :
    place s tp <+: place s tp' ↔ tp = tp' ∨ TakesSign tp tp' ∨ TakesSign tp' tp := by
  rw [place_eq s h, place_eq s h', List.prefix_append_right_inj, List.cons_prefix_cons,
    dirName_eq_iff]
  exact and_iff_left List.nil_prefix

/-! ## Deletions -/

/-- The map has a log for the partition. -/
def Holds {numShards : ℕ} (m : ShardedLogMap numShards) (tp : TopicPartition) : Prop :=
  ∃ i < numShards, tp ∈ m.shards i

/-- INTERNAL: after `n` rounds of `erase_if` the shards from the `n`th on are as they were, and
the partitions erased are those of the shards before it. -/
theorem eraseRounds_topic {numShards : ℕ} (m : ShardedLogMap numShards) (name : Bytes) (n : ℕ) :
    (∀ i, n ≤ i → (eraseRounds (fun tp _ => tp.topic = name) m n).2.shards i = m.shards i) ∧
      ∀ tp, tp ∈ (eraseRounds (fun tp _ => tp.topic = name) m n).1 ↔
        (∃ i < n, tp ∈ m.shards i) ∧ tp.topic = name := by
  induction n with
  | zero => exact ⟨fun _ _ => rfl, fun tp => by simp [eraseRounds]⟩
  | succ n ih =>
    obtain ⟨hrest, hmem⟩ := ih
    rw [eraseRounds_succ]
    refine ⟨?_, ?_⟩
    · intro i hi
      simp only [ShardedLogMap.eraseShard]
      rw [Function.update_of_ne (by omega), hrest i (by omega)]
    · intro tp
      have hround : tp ∈ ((eraseRounds (fun tp _ => tp.topic = name) m n).2.eraseShard
          (fun tp _ => tp.topic = name) n).1 ↔ tp ∈ m.shards n ∧ tp.topic = name := by
        rw [mem_eraseShard_topic, hrest n le_rfl]
      simp only [List.mem_append, hmem, hround, Nat.lt_succ_iff_lt_or_eq, or_and_right, exists_or,
        exists_eq_left]

theorem mem_erased_iff {numShards : ℕ} (m : ShardedLogMap numShards) (name : Bytes)
    (tp : TopicPartition) :
    tp ∈ (m.eraseIf fun tp _ => tp.topic = name).1 ↔ Holds m tp ∧ tp.topic = name :=
  (eraseRounds_topic m name numShards).2 tp

/-- INTERNAL: a deletion removes the directories of the partitions it erases. -/
theorem dirs_handleDeleteTopic (s : Storage) (name : Bytes) (req : HttpRequest) :
    (s.handleDeleteTopic name req).2.dirs =
      s.removePartitions (s.broker.shardedLogs.eraseIf fun tp _ => tp.topic = name).1 := by
  unfold Storage.handleDeleteTopic
  generalize (s.broker.shardedLogs.eraseIf fun tp _ => decide (tp.topic = name)) = r
  obtain ⟨erased, logs⟩ := r
  by_cases hnone : erased = []
  · subst hnone
    rfl
  · simp only [hnone, if_false]

/-- INTERNAL: **a deletion removes what stands at or below its topic's partitions.** -/
theorem mem_dirs_delete_iff (s : Storage) (name : Bytes) (req : HttpRequest) {dir : Location} :
    dir ∈ (s.handleDeleteTopic name req).2.dirs ↔ dir ∈ s.dirs ∧
      ∀ tp, Holds s.broker.shardedLogs tp → tp.topic = name → ¬ place s tp <+: dir := by
  rw [dirs_handleDeleteTopic]
  refine (mem_foldl_removeAll (place s)).trans ?_
  simp only [mem_erased_iff, and_imp]

/-- PROPERTY: two different partitions have different directories exactly unless the one's number
is negative and the other's topic and number are the one's with the sign moved from the number to
the topic. A deletion keeps the directory of a partition of another topic exactly unless it stands
at or below that of a partition it erases; where both topics are without a slash, exactly unless
the sign is moved between the two.
SOURCE: storage/partition_log.h:108-115, http/http_server.cpp:666-686 -/
theorem storage_is_apart_iff (s : Storage) (name : Bytes) (req : HttpRequest)
    (tp' : TopicPartition) (segmentSize : ℕ) (hother : tp'.topic ≠ name)
    (hdir : place s tp' ∈ s.dirs) :
    (∀ tp, tp ≠ tp' →
      ((PartitionLog.create tp s.broker.config.logDir segmentSize).baseDir ≠
          (PartitionLog.create tp' s.broker.config.logDir segmentSize).baseDir ↔
        ¬ (TakesSign tp tp' ∨ TakesSign tp' tp))) ∧
    (place s tp' ∈ (s.handleDeleteTopic name req).2.dirs ↔
      ∀ tp, Holds s.broker.shardedLogs tp → tp.topic = name → ¬ place s tp <+: place s tp') ∧
    ((0x2f : UInt8) ∉ name → (0x2f : UInt8) ∉ tp'.topic → ∀ tp, tp.topic = name →
      (place s tp <+: place s tp' ↔ TakesSign tp tp' ∨ TakesSign tp' tp)) := by
  refine ⟨?_, ?_, ?_⟩
  · intro tp hne
    rw [baseDir_create, baseDir_create, Ne, partitionPath_eq_iff, not_or]
    exact and_iff_right hne
  · rw [mem_dirs_delete_iff]
    exact and_iff_right hdir
  · rintro hname htopic tp rfl
    rw [place_isPrefix_iff s hname htopic]
    refine or_iff_right ?_
    rintro rfl
    exact hother rfl

/-- Three partitions with their directories: those of `a` and `a-` have one, and that of
`a--1/b` stands in it. -/
def sharedDirectory : Storage :=
  let logDir := ascii "data"
  let tps : List TopicPartition := [⟨ascii "a", -1⟩, ⟨ascii "a-", 1⟩, ⟨ascii "a--1/b", 0⟩]
  { broker :=
      { config := { logDir := logDir }
        shardedLogs := tps.foldl (fun m tp => m.put tp (PartitionLog.create tp logDir 65536)) {} }
    dirs := [[ascii "data"], [ascii "data", ascii "a--1"],
      [ascii "data", ascii "a--1", ascii "b-0"]] }

/-- The same with a partition of topic `c`. -/
def fourPartitions : Storage :=
  { sharedDirectory with
    broker := { sharedDirectory.broker with
      shardedLogs := sharedDirectory.broker.shardedLogs.put ⟨ascii "c", 0⟩
        (PartitionLog.create ⟨ascii "c", 0⟩ (ascii "data") 65536) }
    dirs := sharedDirectory.dirs ++ [[ascii "data", ascii "c-0"]] }

/-- Deleting topic `c` removes its directory and keeps that of partition `-1` of topic `a`. -/
theorem storage_is_apart_iff_kept :
    place fourPartitions ⟨ascii "c", 0⟩ ∈ fourPartitions.dirs ∧
      place fourPartitions ⟨ascii "c", 0⟩ ∉
        (fourPartitions.handleDeleteTopic (ascii "c") {}).2.dirs ∧
      place fourPartitions ⟨ascii "a", -1⟩ ∈
        (fourPartitions.handleDeleteTopic (ascii "c") {}).2.dirs := by
  obtain ⟨-, hkept, hplain⟩ := storage_is_apart_iff fourPartitions (ascii "c") {}
    ⟨ascii "a", -1⟩ 65536 (by decide) (by decide +kernel)
  refine ⟨by decide +kernel, by decide +kernel, hkept.mpr ?_⟩
  rintro ⟨topic, k⟩ - rfl
  rw [hplain (by decide) (by decide) _ rfl, takesSign_iff, takesSign_iff]
  rintro (⟨hneg, -, hnum⟩ | ⟨-, htopic, -⟩)
  · omega
  · exact absurd htopic (by decide)

/-- A partition number with a sign is accepted, and two partitions have one directory; deleting
the one's topic removes the other's directory, and the directory that stands in it. -/
theorem deletion_removes_another_topic :
    HttpServer.stoi (ascii "-1") = some (-1) ∧
      (PartitionLog.create ⟨ascii "a", -1⟩ (ascii "data") 65536).baseDir =
        (PartitionLog.create ⟨ascii "a-", 1⟩ (ascii "data") 65536).baseDir ∧
      place sharedDirectory ⟨ascii "a", -1⟩ ∈ sharedDirectory.dirs ∧
      place sharedDirectory ⟨ascii "a--1/b", 0⟩ ∈ sharedDirectory.dirs ∧
      (sharedDirectory.handleDeleteTopic (ascii "a-") {}).2.dirs = [[ascii "data"]] := by
  decide +kernel

end StrikeMQ.Analysis.PartitionDirectories
