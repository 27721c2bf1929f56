import StrikeMQ.Model.Broker
import StrikeMQ.Analysis.AcknowledgedReads

/-!
# How long the responses are

`BinaryWriter` never compares its position with its capacity, so a response is as long as
its fields are. The number of bytes is computed here for each encoder, as a function of what
it is given, and for the broker's handlers as a function of the request and the broker's state
before it. Whether a response fits its buffer is then a condition on these two.

The four encoders that regroup partitions by topic write every topic once and every partition
once, whatever the order of the list (`StrikeMQ.Lib.sum_groups`).
-/

set_option autoImplicit false

namespace StrikeMQ.Analysis.ResponseSize

open StrikeMQ.Lib StrikeMQ.Model StrikeMQ.Model.KafkaEncoder StrikeMQ.Model.RequestRouter
open StrikeMQ.Interface StrikeMQ.Analysis.BatchSerialization StrikeMQ.Analysis.LogLayout
open StrikeMQ.Analysis.PartitionRead StrikeMQ.Analysis.AcknowledgedReads

/-! ## The writer's position -/

section Writer

variable (w : BinaryWriter)

@[simp]
theorem position_writeRaw (src : Bytes) : (w.writeRaw src).position = w.position + src.length :=
  List.length_append

@[simp]
theorem position_writeInt8 (v : ℤ) : (w.writeInt8 v).position = w.position + 1 := by
  rw [BinaryWriter.writeInt8, position_writeRaw, length_beInt]

@[simp]
theorem position_writeInt16 (v : ℤ) : (w.writeInt16 v).position = w.position + 2 := by
  rw [BinaryWriter.writeInt16, position_writeRaw, length_beInt]

@[simp]
theorem position_writeInt32 (v : ℤ) : (w.writeInt32 v).position = w.position + 4 := by
  rw [BinaryWriter.writeInt32, position_writeRaw, length_beInt]

@[simp]
theorem position_writeInt64 (v : ℤ) : (w.writeInt64 v).position = w.position + 8 := by
  rw [BinaryWriter.writeInt64, position_writeRaw, length_beInt]

@[simp]
theorem position_writeString (s : Bytes) :
    (w.writeString s).position = w.position + (2 + s.length) := by
  rw [BinaryWriter.writeString, position_writeRaw, position_writeInt16, Nat.add_assoc]

@[simp]
theorem position_writeBytes (bs : Bytes) :
    (w.writeBytes bs).position = w.position + (4 + bs.length) := by
  unfold BinaryWriter.writeBytes
  split
  · rw [position_writeRaw, position_writeInt32, Nat.add_assoc]
  · rename_i h
    rw [position_writeInt32, not_not.mp h, List.length_nil]

/-- A field that only some versions have. -/
theorem position_ite (c : Prop) [Decidable c] {w' : BinaryWriter} {n : ℕ}
    (h : w'.position = w.position + n) :
    (if c then w' else w).position = w.position + if c then n else 0 := by
  split
  · exact h
  · rfl

variable {α : Type} {entry : BinaryWriter → α → BinaryWriter}

theorem position_foldl {size : α → ℕ} (h : ∀ w x, (entry w x).position = w.position + size x)
    (xs : List α) :
    (xs.foldl entry w).position = w.position + (xs.map size).sum := by
  induction xs generalizing w with
  | nil => rfl
  | cons x xs ih => rw [List.foldl_cons, ih, h, List.map_cons, List.sum_cons, Nat.add_assoc]

theorem position_writeArray (size : α → ℕ)
    (h : ∀ w x, (entry w x).position = w.position + size x) (xs : List α) :
    (w.writeArray entry xs).position = w.position + (4 + (xs.map size).sum) := by
  rw [BinaryWriter.writeArray, position_foldl _ h, position_writeInt32, Nat.add_assoc]

end Writer

/-- INTERNAL: a frame is as long as its body gets after the place of the size, which is
filled in last. -/
theorem length_encodeFrame {cap n : ℕ} {body : BinaryWriter → BinaryWriter} (hn : 4 ≤ n)
    (h : ∀ w : BinaryWriter, w.position = 4 → (body w).position = n) :
    (encodeFrame cap body).length = n := by
  have hpos : (body ⟨beInt 4 0, cap⟩).data.length = n := h _ (length_beInt 4 0)
  change (List.take 0 _ ++ beInt 4 _ ++ List.drop (0 + 4) (body ⟨beInt 4 0, cap⟩).data).length = _
  rw [List.take_zero, List.nil_append, List.length_append, length_beInt, List.length_drop, hpos]
  omega

/-- The width of partitions grouped by topic: the number of topics, each topic's name and
number of partitions once, and every partition. -/
def byTopicWidth {α : Type} (tp : α → TopicPartition) (size : α → ℕ) (parts : List α) : ℕ :=
  4 + (∑ t ∈ (parts.map fun p => (tp p).topic).toFinset, (6 + t.length) + (parts.map size).sum)

theorem byTopicWidth_map {α β : Type} {tp : α → TopicPartition} {tp' : β → TopicPartition}
    {size : α → ℕ} {size' : β → ℕ} {f : α → β} (htp : ∀ p, tp' (f p) = tp p)
    (hsize : ∀ p, size' (f p) = size p) (parts : List α) :
    byTopicWidth tp' size' (parts.map f) = byTopicWidth tp size parts := by
  have htopics : (fun p => (tp' p).topic) ∘ f = fun p => (tp p).topic :=
    funext fun p => congrArg TopicPartition.topic (htp p)
  have hsizes : size' ∘ f = size := funext hsize
  rw [byTopicWidth, byTopicWidth, List.map_map, List.map_map, htopics, hsizes]

/-- INTERNAL: regrouping writes every topic once and every partition once. -/
theorem position_writeByTopic {α : Type} {tp : α → TopicPartition}
    {entry : BinaryWriter → α → BinaryWriter} (size : α → ℕ)
    (h : ∀ w x, (entry w x).position = w.position + size x) (w : BinaryWriter) (parts : List α) :
    (writeByTopic tp entry w parts).position = w.position + byTopicWidth tp size parts := by
  have htopic : ∀ (w : BinaryWriter) (t : Bytes),
      ((w.writeString t).writeArray entry (parts.filter fun p => (tp p).topic = t)).position =
        w.position +
          ((6 + t.length) + ((parts.filter fun p => (tp p).topic = t).map size).sum) := by
    intro w t
    rw [position_writeArray _ size h, position_writeString]
    omega
  have hkeys : parts.map (TopicPartition.topic ∘ tp) = parts.map fun p => (tp p).topic := rfl
  have hmem : ∀ p ∈ parts, (tp p).topic ∈ topicsOf (parts.map tp) := by
    intro p hp
    rw [topicsOf, mem_distinct, List.map_map]
    exact List.mem_map_of_mem hp
  have hnodup : (topicsOf (parts.map tp)).Nodup := nodup_distinct _
  rw [writeByTopic, position_writeArray _ _ htopic, List.sum_map_add,
    sum_groups (fun p => (tp p).topic) size hnodup hmem, ← List.sum_toFinset _ hnodup, topicsOf,
    toFinset_distinct, List.map_map, hkeys, byTopicWidth]

/-! ## The encoders -/

section Encoders

variable (cap : ℕ) (cid v : ℤ)

theorem length_encodeProduceResponse (parts : List ProducePartitionResponse) (topic : Bytes) :
    (encodeProduceResponse cap cid parts topic).length =
      22 + topic.length + 30 * parts.length := by
  rw [encodeProduceResponse]
  apply length_encodeFrame
  · omega
  · intro w hw
    rw [position_writeInt32, position_writeArray _ (fun _ => 30)]
    · simp only [position_writeInt32, position_writeString, List.map_const', List.sum_replicate,
        smul_eq_mul]
      omega
    · intro w p
      simp only [position_writeInt64, position_writeInt32, position_writeInt16]

theorem length_encodeListOffsetsResponse (parts : List ListOffsetsPartitionResponse) :
    (encodeListOffsetsResponse cap cid parts v).length =
      8 + (if v ≥ 2 then 4 else 0) +
        byTopicWidth (·.tp) (fun _ => if v = 0 then 18 else 22) parts := by
  rw [encodeListOffsetsResponse]
  apply length_encodeFrame
  · omega
  · intro w hw
    rw [position_writeByTopic (fun _ => if v = 0 then 18 else 22),
      position_ite _ _ (position_writeInt32 _ _), position_writeInt32]
    · omega
    · intro w p
      split <;> simp only [position_writeInt64, position_writeInt32, position_writeInt16]

theorem length_encodeFetchResponse (parts : List FetchPartitionResponse) :
    (encodeFetchResponse cap cid parts v).length =
      8 + (if v ≥ 1 then 4 else 0) +
        byTopicWidth (·.tp) (fun p => 18 + (if v ≥ 4 then 12 else 0) + p.recordDataSize) parts := by
  rw [encodeFetchResponse]
  apply length_encodeFrame
  · omega
  · intro w hw
    rw [position_writeByTopic
        (fun p => 18 + (if v ≥ 4 then 12 else 0) + p.recordDataSize),
      position_ite _ _ (position_writeInt32 _ _), position_writeInt32]
    · omega
    · intro w p
      have hlater : ∀ w : BinaryWriter,
          ((w.writeInt64 p.highWatermark).writeInt32 (-1)).position = w.position + 12 := by
        intro w
        simp only [position_writeInt64, position_writeInt32]
      rw [position_writeBytes, position_ite _ _ (hlater _), FetchPartitionResponse.recordDataSize]
      simp only [position_writeInt64, position_writeInt32, position_writeInt16]
      omega

theorem position_writeApi (w : BinaryWriter) (a : ℤ × ℤ × ℤ) :
    (writeApi w a).position = w.position + 6 := by
  simp only [writeApi, position_writeInt16]

theorem length_encodeApiVersionsResponse :
    (encodeApiVersionsResponse cap cid v).length =
      if v ≥ 3 then 107 else if v ≥ 1 then 96 else 92 := by
  rw [encodeApiVersionsResponse]
  apply length_encodeFrame
  · split_ifs <;> omega
  · intro w hw
    by_cases h3 : v ≥ 3
    · have hentry : ∀ (w : BinaryWriter) (a : ℤ × ℤ × ℤ),
          ((writeApi w a).writeInt8 0).position = w.position + 7 := by
        intro w a
        rw [position_writeInt8, position_writeApi]
      simp only [if_pos h3, position_writeInt8, position_writeInt32, position_foldl _ hentry,
        BinaryWriter.writeUvarint, position_writeRaw, position_writeInt16, hw]
      rfl
    · simp only [if_neg h3]
      rw [position_ite _ _ (position_writeInt32 _ _), position_foldl _ position_writeApi]
      simp only [position_writeInt32, position_writeInt16, hw]
      split_ifs <;> rfl

theorem length_encodeMetadataResponse (info : MetadataInfo) :
    (encodeMetadataResponse cap cid info).length =
      26 + info.host.length +
        (info.topics.map fun t => 8 + t.length + 26 * info.numPartitions.toNat).sum := by
  rw [encodeMetadataResponse]
  apply length_encodeFrame
  · omega
  · intro w hw
    rw [position_writeArray _ (fun t => 8 + t.length + 26 * info.numPartitions.toNat)]
    · simp only [position_writeInt32, position_writeString]
      omega
    · intro w t
      have hpartition : ∀ (w : BinaryWriter) (p : ℕ),
          (writePartitionMetadata info.brokerId w p).position = w.position + 26 := by
        intro w p
        simp only [writePartitionMetadata, position_writeInt32, position_writeInt16]
      rw [position_foldl _ hpartition]
      simp only [position_writeInt32, position_writeString, position_writeInt16, List.map_const',
        List.sum_replicate, List.length_range, smul_eq_mul]
      omega

theorem length_encodeFindCoordinatorResponse (info : CoordinatorInfo) :
    (encodeFindCoordinatorResponse cap cid v info).length =
      20 + (if v ≥ 1 then 6 else 0) + info.host.length := by
  rw [encodeFindCoordinatorResponse]
  apply length_encodeFrame
  · omega
  · intro w hw
    simp only [position_writeInt32, position_writeString,
      position_ite _ _ (position_writeString _ _), position_writeInt16,
      position_ite _ _ (position_writeInt32 _ _), List.length_nil]
    split_ifs <;> omega

theorem length_encodeJoinGroupResponse (resp : JoinGroupResponse) :
    (encodeJoinGroupResponse cap cid v resp).length =
      24 + (if v ≥ 2 then 4 else 0) + resp.protocolName.length + resp.leaderId.length +
        resp.memberId.length +
        (resp.members.map fun m => 6 + m.memberId.length + m.metadata.length).sum := by
  rw [encodeJoinGroupResponse]
  apply length_encodeFrame
  · omega
  · intro w hw
    rw [position_writeArray _ (fun m => 6 + m.memberId.length + m.metadata.length)]
    · simp only [position_writeString, position_writeInt32, position_writeInt16,
        position_ite _ _ (position_writeInt32 _ _)]
      omega
    · intro w m
      rw [position_writeBytes, position_writeString]
      omega

theorem length_encodeSyncGroupResponse (resp : SyncGroupResponse) :
    (encodeSyncGroupResponse cap cid v resp).length =
      14 + (if v ≥ 1 then 4 else 0) + resp.memberAssignment.length := by
  rw [encodeSyncGroupResponse]
  apply length_encodeFrame
  · omega
  · intro w hw
    rw [position_writeBytes, position_writeInt16, position_ite _ _ (position_writeInt32 _ _),
      position_writeInt32]
    omega

theorem length_encodeErrorResponse (errorCode : ℤ) :
    (encodeErrorResponse cap cid v errorCode).length = 10 + if v ≥ 1 then 4 else 0 := by
  rw [encodeErrorResponse]
  apply length_encodeFrame
  · omega
  · intro w hw
    rw [position_writeInt16, position_ite _ _ (position_writeInt32 _ _), position_writeInt32]
    omega

theorem length_encodeOffsetCommitResponse (parts : List OffsetCommitPartitionResponse) :
    (encodeOffsetCommitResponse cap cid v parts).length =
      8 + (if v ≥ 3 then 4 else 0) + byTopicWidth (·.tp) (fun _ => 6) parts := by
  rw [encodeOffsetCommitResponse]
  apply length_encodeFrame
  · omega
  · intro w hw
    rw [position_writeByTopic (fun _ => 6), position_ite _ _ (position_writeInt32 _ _),
      position_writeInt32]
    · omega
    · intro w p
      rw [position_writeInt16, position_writeInt32]

theorem length_encodeOffsetFetchResponse (parts : List OffsetFetchPartitionResponse)
    (groupErrorCode : ℤ) :
    (encodeOffsetFetchResponse cap cid v parts groupErrorCode).length =
      8 + (if v ≥ 3 then 4 else 0) +
        byTopicWidth (·.tp) (fun p => 16 + p.metadata.length) parts + if v ≥ 2 then 2 else 0 := by
  rw [encodeOffsetFetchResponse]
  apply length_encodeFrame
  · omega
  · intro w hw
    rw [position_ite _ _ (position_writeInt16 _ _),
      position_writeByTopic (fun p => 16 + p.metadata.length),
      position_ite _ _ (position_writeInt32 _ _), position_writeInt32]
    · omega
    · intro w p
      simp only [position_writeInt16, position_writeString, position_writeInt64,
        position_writeInt32]
      omega

end Encoders

/-! ## The broker's responses -/

/-- The bytes a fetch of one partition finds in the log. -/
def readSize (b : Broker) (pf : PartitionFetch) : ℕ :=
  match b.shardedLogs.find pf.tp with
  | none => 0
  | some log => (log.read pf.fetchOffset pf.partitionMaxBytes).size

/-- The metadata a group has committed for a partition. -/
def committedMetadata (b : Broker) (groupId : Bytes) (tp : TopicPartition) : Bytes :=
  match b.groupMgr.groups.lookup groupId with
  | none => []
  | some group =>
    if (group.committedOffsets.lookup tp).isSome then (group.offsetMetadata.lookup tp).getD []
    else []

/-- The bytes that the fields of the response to a request take, from the request and the
broker as it stands before it: the size and the correlation id, a throttle time where the
version has one, and what the request asks for. -/
def responseWidth (env : GroupEnv) (b : Broker) (r : RoutedRequest) : ℕ :=
  let v := r.apiVersion
  match r.body with
  | .apiVersions => if v ≥ 3 then 107 else if v ≥ 1 then 96 else 92
  | .produce q => 22 + (produceTopic q).length + 30 * q.batches.length
  | .listOffsets q =>
    8 + (if v ≥ 2 then 4 else 0) +
      byTopicWidth (·.tp) (fun _ => if v = 0 then 18 else 22) q.partitions
  | .fetch q =>
    8 + (if v ≥ 1 then 4 else 0) +
      byTopicWidth (·.tp) (fun pf => 18 + (if v ≥ 4 then 12 else 0) + readSize b pf) q.partitions
  | .metadata q =>
    26 + b.advertisedHost.length +
      ((if q = [] then b.knownTopics else q).map fun t => 34 + t.length).sum
  | .findCoordinator _ => 20 + (if v ≥ 1 then 6 else 0) + b.advertisedHost.length
  | .joinGroup q =>
    let resp := (b.groupMgr.joinGroup env q).2
    24 + (if v ≥ 2 then 4 else 0) + resp.protocolName.length + resp.leaderId.length +
      resp.memberId.length +
      (resp.members.map fun m => 6 + m.memberId.length + m.metadata.length).sum
  | .syncGroup q =>
    14 + (if v ≥ 1 then 4 else 0) + (b.groupMgr.syncGroup q).2.memberAssignment.length
  | .heartbeat _ => 10 + if v ≥ 1 then 4 else 0
  | .leaveGroup _ => 10 + if v ≥ 1 then 4 else 0
  | .offsetCommit q => 8 + (if v ≥ 3 then 4 else 0) + byTopicWidth (·.tp) (fun _ => 6) q.partitions
  | .offsetFetch q =>
    8 + (if v ≥ 3 then 4 else 0) +
      byTopicWidth (·.tp) (fun p => 16 + (committedMetadata b q.groupId p.tp).length)
        q.partitions + if v ≥ 2 then 2 else 0
  | .unsupported => 0

/-- INTERNAL: the Produce handler answers every batch, whatever becomes of the append. -/
theorem length_produceBatches (bs : List RecordBatch) (s : Option Broker) :
    (Broker.produceBatches bs s).1.length = bs.length := by
  induction bs generalizing s with
  | nil => rfl
  | cons b bs ih =>
    rw [Broker.produceBatches, List.length_cons]
    exact congrArg Nat.succ (ih _)

theorem fetchPartition_spec (b : Broker) (pf : PartitionFetch) :
    (b.fetchPartition pf).tp = pf.tp ∧ (b.fetchPartition pf).recordDataSize = readSize b pf := by
  unfold Broker.fetchPartition readSize
  cases b.shardedLogs.find pf.tp with
  | none => exact ⟨rfl, rfl⟩
  | some log => exact ⟨rfl, rfl⟩

theorem listOffsetsPartition_tp (b : Broker) (pr : ListOffsetsPartition) :
    (b.listOffsetsPartition pr).tp = pr.tp := by
  unfold Broker.listOffsetsPartition
  cases b.shardedLogs.find pr.tp with
  | none => rfl
  | some log => rfl

/-- INTERNAL: a Metadata request changes neither the address the broker advertises nor, when
it names no topic, the topics it knows. -/
theorem metadata_spec (requested : List Bytes) (b : Broker) :
    (Broker.metadata requested b).1.host = b.advertisedHost ∧
      (Broker.metadata requested b).1.topics =
        (if requested = [] then b.knownTopics else requested) ∧
      (Broker.metadata requested b).1.numPartitions = 1 := by
  have hconfig : ∀ (ts : List Bytes) (b : Broker),
      (ts.foldl (fun b topic => (b.getOrCreateLog ⟨topic, 0⟩).2) b).config = b.config := by
    intro ts
    induction ts with
    | nil => exact fun b => rfl
    | cons t ts ih => exact fun b => ih _
  refine ⟨?_, ?_, rfl⟩
  · simp only [Broker.metadata, Broker.advertisedHost, hconfig]
  · unfold Broker.metadata
    cases requested with
    | nil => rfl
    | cons t ts => rfl

theorem offsetFetch_eq_map (b : Broker) (q : OffsetFetchRequest) :
    ∃ f : OffsetFetchPartitionRequest → OffsetFetchPartitionResponse,
      b.groupMgr.offsetFetch q = q.partitions.map f ∧
      ∀ p, (f p).tp = p.tp ∧ (f p).metadata = committedMetadata b q.groupId p.tp := by
  refine ⟨_, rfl, ?_⟩
  intro p
  unfold committedMetadata
  cases b.groupMgr.groups.lookup q.groupId with
  | none => exact ⟨rfl, rfl⟩
  | some group =>
    cases hoffset : group.committedOffsets.lookup p.tp with
    | none => simp [hoffset]
    | some offset => simp [hoffset]

/-- INTERNAL: **every response is exactly as long as the width of its fields.** -/
theorem length_response (env : GroupEnv) (b : Broker) (cap : ℕ) (r : RoutedRequest) :
    (dispatch (Broker.handlers env) cap r (some b)).response.length = responseWidth env b r := by
  obtain ⟨cid, v, body⟩ := r
  cases body with
  | apiVersions => exact length_encodeApiVersionsResponse cap cid v
  | produce q =>
    change (encodeProduceResponse cap cid (Broker.produceBatches q.batches (some b)).1
      (produceTopic q)).length = _
    rw [length_encodeProduceResponse, length_produceBatches]
    rfl
  | listOffsets q =>
    change (encodeListOffsetsResponse cap cid (q.partitions.map b.listOffsetsPartition) v).length = _
    rw [length_encodeListOffsetsResponse,
      byTopicWidth_map (listOffsetsPartition_tp b) fun _ => rfl]
    rfl
  | fetch q =>
    change (encodeFetchResponse cap cid (q.partitions.map b.fetchPartition) v).length = _
    rw [length_encodeFetchResponse, byTopicWidth_map (fun pf => (fetchPartition_spec b pf).1)
      fun pf => by rw [(fetchPartition_spec b pf).2]]
    rfl
  | metadata q =>
    obtain ⟨hhost, htopics, hone⟩ := metadata_spec q b
    change (encodeMetadataResponse cap cid (Broker.metadata q b).1).length = _
    rw [length_encodeMetadataResponse, hhost, htopics, hone]
    have hwidth : (fun t : Bytes => 8 + t.length + 26 * (1 : ℤ).toNat) =
        fun t : Bytes => 34 + t.length := by
      funext t
      simp only [Int.toNat_one]
      omega
    rw [hwidth]
    rfl
  | findCoordinator q => exact length_encodeFindCoordinatorResponse cap cid v b.findCoordinator
  | joinGroup q => exact length_encodeJoinGroupResponse cap cid v (b.groupMgr.joinGroup env q).2
  | syncGroup q => exact length_encodeSyncGroupResponse cap cid v (b.groupMgr.syncGroup q).2
  | heartbeat q => exact length_encodeErrorResponse cap cid v (b.groupMgr.heartbeat env q).2
  | leaveGroup q => exact length_encodeErrorResponse cap cid v (b.groupMgr.leaveGroup env q).2
  | offsetCommit q =>
    have hmap : byTopicWidth OffsetCommitPartitionResponse.tp (fun _ => 6)
        (b.groupMgr.offsetCommit q).2 =
          byTopicWidth OffsetCommitPartitionRequest.tp (fun _ => 6) q.partitions :=
      byTopicWidth_map (fun _ => rfl) (fun _ => rfl) q.partitions
    change (encodeOffsetCommitResponse cap cid v (b.groupMgr.offsetCommit q).2).length = _
    rw [length_encodeOffsetCommitResponse, hmap]
    rfl
  | offsetFetch q =>
    obtain ⟨f, hf, hspec⟩ := offsetFetch_eq_map b q
    change (encodeOffsetFetchResponse cap cid v (b.groupMgr.offsetFetch q) 0).length = _
    rw [length_encodeOffsetFetchResponse, hf, byTopicWidth_map (fun p => (hspec p).1)
      fun p => by rw [(hspec p).2]]
    rfl
  | unsupported => rfl

/-- PROPERTY: for every frame that decodes to a request, every state of the broker and every
capacity, the response stays within the capacity if and only if the fields that the request
and the state before it call for do.
SOURCE: protocol/kafka_codec.cpp:585-714, main.cpp:70-187 -/
theorem response_within_capacity_iff (env : GroupEnv) (b : Broker) (m : Memory) (len cap : ℕ)
    (r : RoutedRequest) (rest : BinaryReader)
    (hdecode : (decodeRequest true).run m { length := len } = some (r, rest)) :
    ∃ out, routeRequest (Broker.handlers env) m len cap (some b) = some out ∧
      (out.response.length ≤ cap ↔ responseWidth env b r ≤ cap) := by
  refine ⟨dispatch (Broker.handlers env) cap r (some b), ?_, by rw [length_response]⟩
  rw [routeRequest, show (Broker.handlers env).metadata.isSome = true from rfl, hdecode]
  rfl

/-- A Fetch, version 0, of up to 1 MiB from offset 0 of partition 0 of the topic `t`. -/
def fetchFrame : Bytes :=
  [0, 1, 0, 0, 0, 0, 0, 7, 0, 0, 255, 255, 255, 255, 0, 0, 0, 0, 0, 0, 0, 1, 0, 0, 0, 1, 0, 1,
    0x74, 0, 0, 0, 1, 0, 0, 0, 0, 0, 0, 0, 0, 0, 0, 0, 0, 0, 16, 0, 0]

def fetchRequest : RoutedRequest :=
  ⟨7, 0, .fetch
    { correlationId := 7, maxWaitMs := 0, partitions := [⟨⟨ascii "t", 0⟩, 0, 1048576⟩] }⟩

theorem decode_fetchFrame :
    (decodeRequest true).run (Memory.ofBytes fetchFrame) { length := 49 } =
      some (fetchRequest, { length := 49, pos := 49 }) := by
  decide +kernel

/-- The response to a fetch from a broker without the topic fits. -/
theorem response_within_capacity_iff_fetch :
    responseWidth .plain {} fetchRequest ≤ 65536 ∧
      ∃ out, routeRequest (Broker.handlers .plain) (Memory.ofBytes fetchFrame) 49 65536 (some {}) =
          some out ∧ out.response.length ≤ 65536 := by
  have hwidth : responseWidth .plain {} fetchRequest ≤ 65536 := by decide +kernel
  obtain ⟨out, hroute, hiff⟩ :=
    response_within_capacity_iff .plain {} _ _ 65536 _ _ decode_fetchFrame
  exact ⟨hwidth, out, hroute, hiff.mpr hwidth⟩

/-! ## A response that does not fit -/

/-- INTERNAL: the first batch of a log is what a read from its start returns. -/
theorem read_first_batch {tp : TopicPartition} {baseDir : Bytes} {segmentSize : ℕ}
    {b : RecordBatch} {log : PartitionLog} {base : ℤ} {out : Bytes}
    (happ : (PartitionLog.create tp baseDir segmentSize).append b = some (log, base))
    (hser : PartitionLog.serializeBatch (PartitionLog.assignOffsets base b) appendBufferSize =
      some out)
    (hfit : out.length ≤ segmentSize) (hne : b.records ≠ []) (hlt : b.records.length < 2 ^ 63)
    (m : ℤ) : (log.read 0 m).data = some out := by
  obtain ⟨-, sb, ⟨hsb, -, hcount⟩, hcases⟩ :=
    layout_append (layout_create tp baseDir segmentSize) happ
  obtain rfl : sb.bytes = out := Option.some.inj (hsb.symm.trans hser)
  have hlay : Layout log [] [sb] := by
    rcases hcases with ⟨-, -, h⟩ | ⟨hfull, -, -⟩
    · exact h
    · simp only [StoredBatch.lenOf_nil, StoredBatch.len, PartitionLog.create] at hfull
      omega
  have hpos := List.length_pos_iff.mpr hne
  have hbase : sb.base = 0 := hlay.chained.1
  have hnext : log.nextOffset = b.records.length := by
    rw [hlay.next_eq, ← hcount]
    simp
  have hactive : log.activeSegment.baseOffset = 0 := by simpa using hlay.base_eq
  have hindex : IndexedAt log [sb] 0 :=
    indexedAt_of_le hlay (by simp) (le_of_eq hactive) fun _ => lookup_first hlay (le_refl 0)
  exact read_single hlay (by omega) hindex (by omega) (by omega) m

theorem getOrCreateLog_of_find_none {b : Broker} {tp : TopicPartition}
    (h : b.shardedLogs.find tp = none) :
    (b.getOrCreateLog tp).1 = PartitionLog.create tp b.config.logDir b.config.segmentSize := by
  simp only [Broker.getOrCreateLog, ShardedLogMap.getOrCreate, h]

/-- INTERNAL: what an append made of the log is what the map holds after it. -/
theorem find_produceBatch {b : Broker} {batch : RecordBatch} {log' : PartitionLog} {base : ℤ}
    (happ : (b.getOrCreateLog batch.topicPartition).1.append batch = some (log', base)) :
    ∃ b', (Broker.produceBatch batch (some b)).2 = some b' ∧
      b'.shardedLogs.find batch.topicPartition = some log' := by
  simp only [Broker.produceBatch, happ]
  exact ⟨_, rfl, ShardedLogMap.find_put_self _ _ _⟩

theorem state_dispatch_produce (env : GroupEnv) (cap : ℕ) (cid v : ℤ) (batch : RecordBatch)
    (s : Option Broker) :
    (dispatch (Broker.handlers env) cap ⟨cid, v, .produce { batches := [batch] }⟩ s).state =
      (Broker.produceBatch batch s).2 :=
  rfl

/-- A batch of `n` records of seven zero bytes each, the encoding of an empty record. -/
def emptyRecords (n : ℕ) : RecordBatch :=
  { topicPartition := ⟨ascii "t", 0⟩
    records := List.replicate n (zeroRecord 7 (by norm_num)) }

theorem serializedSize_emptyRecords (n : ℕ) : (emptyRecords n).serializedSize = 61 + n * 7 := by
  rw [RecordBatch.serializedSize, emptyRecords, List.map_replicate, zeroRecord_totalSize,
    List.sum_replicate, smul_eq_mul]

/-- INTERNAL: a fresh broker that was sent the batch stores it, and a fetch from the start of
the partition reads all of it. -/
theorem readSize_after_produce {n : ℕ} (hpos : 0 < n) (hsize : 61 + n * 7 < 65536) :
    ∃ b, (Broker.produceBatch (emptyRecords n) (some {})).2 = some b ∧
      ∀ m : ℤ, readSize b ⟨⟨ascii "t", 0⟩, 0, m⟩ = 61 + n * 7 := by
  have hdata : ∀ r ∈ (emptyRecords n).records, r.data.isSome ∧ 0 < r.totalSize := by
    intro r hr
    rw [List.eq_of_mem_replicate hr, zeroRecord_totalSize]
    exact ⟨zeroRecord_data _ _, by norm_num⟩
  obtain ⟨log, out, happ, hser, hlen⟩ :=
    exists_append_of_serializedSize_lt
      (PartitionLog.create ⟨ascii "t", 0⟩ ({} : BrokerConfig).logDir 1073741824) hdata
      (by rw [serializedSize_emptyRecords]; exact hsize)
  rw [serializedSize_emptyRecords] at hlen
  have hfresh : (({} : Broker).getOrCreateLog (emptyRecords n).topicPartition).1 =
      PartitionLog.create ⟨ascii "t", 0⟩ ({} : BrokerConfig).logDir 1073741824 :=
    getOrCreateLog_of_find_none rfl
  obtain ⟨b, hb, hfind⟩ := find_produceBatch (hfresh ▸ happ)
  refine ⟨b, hb, ?_⟩
  intro m
  have hcount : (emptyRecords n).records.length = n := List.length_replicate
  have hne : (emptyRecords n).records ≠ [] := List.length_pos_iff.mp (by omega)
  have hread := read_first_batch happ hser (by omega) hne (by omega) m
  have hlog : b.shardedLogs.find ⟨ascii "t", 0⟩ = some log := hfind
  simp only [readSize, hlog, ReadResult.size, hread, Option.getD_some, hlen]

/-- INTERNAL: the response to a fetch of it is the batch with 37 bytes around it. -/
theorem responseWidth_fetchRequest {b : Broker} {size : ℕ}
    (hread : ∀ m : ℤ, readSize b ⟨⟨ascii "t", 0⟩, 0, m⟩ = size) :
    responseWidth .plain b fetchRequest = size + 37 := by
  have htopic : (ascii "t").length = 1 := rfl
  simp only [responseWidth, fetchRequest, byTopicWidth, hread, List.map_cons, List.map_nil,
    List.sum_cons, List.sum_nil, List.toFinset_cons, List.toFinset_nil, insert_empty_eq,
    Finset.sum_singleton, htopic]
  norm_num
  omega

/-- One batch close to 64 KiB in the log is enough. -/
theorem fetch_response_exceeds_buffer :
    ∃ b, (dispatch (Broker.handlers .plain) 65536
        ⟨1, 3, .produce { batches := [emptyRecords 9353] }⟩ (some {})).state = some b ∧
      ∃ out, routeRequest (Broker.handlers .plain) (Memory.ofBytes fetchFrame) 49 65536 (some b) =
          some out ∧
        65536 < out.response.length := by
  obtain ⟨b, hb, hread⟩ := readSize_after_produce (show 0 < 9353 by norm_num) (by norm_num)
  refine ⟨b, (state_dispatch_produce _ _ _ _ _ _).trans hb,
    dispatch (Broker.handlers .plain) 65536 fetchRequest (some b), ?_, ?_⟩
  · rw [routeRequest, show (Broker.handlers .plain).metadata.isSome = true from rfl,
      decode_fetchFrame]
    rfl
  · rw [length_response, responseWidth_fetchRequest hread]
    norm_num

end StrikeMQ.Analysis.ResponseSize
