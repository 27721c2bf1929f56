import StrikeMQ.Interface.KafkaService
import StrikeMQ.Analysis.BrokerRuns
import StrikeMQ.Analysis.CallFiles
import StrikeMQ.Analysis.FrameIsolation
import StrikeMQ.Analysis.FrameProcessing
import StrikeMQ.Analysis.ProduceAnswers
import StrikeMQ.Analysis.RequestDecoding
import StrikeMQ.Analysis.ResponseStream
import StrikeMQ.Analysis.ServiceReplies
import StrikeMQ.Analysis.SpeakableGroups

/-!
# A connection serves the calls made on it

Between a call and the reply there are the client's layout of the request, the read buffer, the
decoders, the handlers on logs and groups, the encoders and the write buffer. The broker refines
the service without bytes: from a new broker on, whatever calls come in whatever segments, each is
performed as the service performs it, in order, and each response is one that the sender can parse
to the result.

The last part depends on what the broker holds. A response takes topic names, member ids, protocol
names, generations and offsets from the broker's state, so that each of them fits its field is an
invariant of the calls (`Speaking`); only the number of records left before the offsets run out
goes down.
-/

set_option autoImplicit false

namespace StrikeMQ.Analysis.KafkaService

open StrikeMQ.Lib StrikeMQ.Lib.Parser StrikeMQ.Model StrikeMQ.Model.BinaryReader
open StrikeMQ.Model.KafkaEncoder StrikeMQ.Model.RequestRouter StrikeMQ.Interface
open StrikeMQ.Analysis.BrokerRuns StrikeMQ.Analysis.CallFiles StrikeMQ.Analysis.FrameIsolation
open StrikeMQ.Analysis.FrameProcessing
open StrikeMQ.Analysis.JoinResponses (length_generateMemberId)
open StrikeMQ.Analysis.ProduceAnswers StrikeMQ.Analysis.ProduceDecoding
open StrikeMQ.Analysis.RequestDecoding StrikeMQ.Analysis.ResponseRegrouping
open StrikeMQ.Analysis.ResponseStream StrikeMQ.Analysis.SegmentLayout
open StrikeMQ.Analysis.ServiceReplies (message_of_parses)
open StrikeMQ.Analysis.SessionRuns StrikeMQ.Analysis.SpeakableGroups StrikeMQ.Analysis.WireReading

/-- INTERNAL: what the router makes of a frame that is decoded. -/
theorem route_of_decoded (env : GroupEnv) {frame : Bytes} {r : RoutedRequest} {rest : BinaryReader}
    (h : (decodeRequest true).run (Memory.ofBytes frame) { length := frame.length } =
      some (r, rest)) (s : Option Broker) :
    Broker.route env frame s = ((dispatch (Broker.handlers env) 65536 r s).response,
      (dispatch (Broker.handlers env) 65536 r s).state) := by
  have hroute : routeRequest (Broker.handlers env) (Memory.ofBytes frame) frame.length 65536 s =
      some (dispatch (Broker.handlers env) 65536 r s) := by
    show ((decodeRequest true).run _ _).map _ = _
    rw [h]
    rfl
  rw [Broker.route, hroute]

/-! ## Responses that can be parsed -/

/-- INTERNAL: the response is a message, and tells its reader the result if it fits its buffer. -/
structure Answered (version : ℕ) (cid : ℤ) (response : Bytes) (result : ServiceResult) : Prop where
  framed : ∃ body, response = wireBytes body
  understood : response.length ≤ 65536 → Understands version cid response result

section Responses

variable {version : ℕ} {cid : ℤ} (hcid : Fits 4 cid)

include hcid

theorem answered_apiVersions :
    Answered version cid (encodeApiVersionsResponse 65536 cid version) .apiVersions := by
  rw [ServiceReplies.encodeApiVersionsResponse_eq]
  refine ⟨⟨_, rfl⟩, fun hlen => ?_⟩
  exact message_of_parses (by norm_num) hlen fun _ => ServiceReplies.parses_apiVersions hcid

theorem answered_metadata {info : MetadataInfo} (h : MetadataSendable info) :
    Answered version cid (encodeMetadataResponse 65536 cid info) (.metadata info) := by
  rw [ServiceReplies.encodeMetadataResponse_eq h.numPartitions]
  refine ⟨⟨_, rfl⟩, fun hlen => ?_⟩
  exact message_of_parses (by norm_num) hlen fun hbody => ServiceReplies.parses_metadata hcid h hbody

theorem answered_findCoordinator {info : CoordinatorInfo} (h : CoordinatorSendable info) :
    Answered version cid (encodeFindCoordinatorResponse 65536 cid version info)
      (.findCoordinator info) := by
  rw [ServiceReplies.encodeFindCoordinatorResponse_eq]
  refine ⟨⟨_, rfl⟩, fun hlen => ?_⟩
  exact message_of_parses (by norm_num) hlen fun _ => ServiceReplies.parses_coordinator hcid h

theorem answered_syncGroup {resp : SyncGroupResponse} (h : Fits 2 resp.errorCode) :
    Answered version cid (encodeSyncGroupResponse 65536 cid version resp) (.syncGroup resp) := by
  rw [ServiceReplies.encodeSyncGroupResponse_eq]
  refine ⟨⟨_, rfl⟩, fun hlen => ?_⟩
  exact message_of_parses (by norm_num) hlen fun hbody => ServiceReplies.parses_sync hcid h hbody

theorem message_error {errorCode : ℤ} (h : Fits 2 errorCode)
    (hlen : (wireBytes (ServiceReplies.errorBytes version cid errorCode)).length ≤ 65536) :
    message (ErrorReply.parser version)
        (wireBytes (ServiceReplies.errorBytes version cid errorCode)) =
      some (ErrorReply.of cid errorCode) :=
  message_of_parses (by norm_num) hlen fun _ => ServiceReplies.parses_error hcid h

theorem answered_heartbeat {errorCode : ℤ} (h : Fits 2 errorCode) :
    Answered version cid (encodeHeartbeatResponse 65536 cid version errorCode)
      (.heartbeat errorCode) := by
  rw [encodeHeartbeatResponse, ServiceReplies.encodeErrorResponse_eq]
  exact ⟨⟨_, rfl⟩, message_error hcid h⟩

theorem answered_leaveGroup {errorCode : ℤ} (h : Fits 2 errorCode) :
    Answered version cid (encodeLeaveGroupResponse 65536 cid version errorCode)
      (.leaveGroup errorCode) := by
  rw [encodeLeaveGroupResponse, ServiceReplies.encodeErrorResponse_eq]
  exact ⟨⟨_, rfl⟩, message_error hcid h⟩

theorem answered_joinGroup {resp : JoinGroupResponse} (herror : Fits 2 resp.errorCode)
    (hgeneration : Fits 4 resp.generationId) (h : JoinResponses.Sendable resp) :
    Answered version cid (encodeJoinGroupResponse 65536 cid version resp) (.joinGroup resp) where
  framed := ⟨_, JoinResponses.encodeJoinGroupResponse_eq⟩
  understood hlen :=
    (JoinResponses.message_reply_iff (by norm_num) hcid herror hgeneration hlen).mpr h

theorem answered_listOffsets {parts : List ListOffsetsPartitionResponse}
    (h : ∀ p ∈ parts, ListOffsetsSendable p) :
    Answered version cid (encodeListOffsetsResponse 65536 cid parts version)
      (.listOffsets parts) := by
  rw [encodeListOffsetsResponse_eq]
  refine ⟨⟨_, rfl⟩, fun hlen => ?_⟩
  exact ⟨_, message_grouped rfl hcid (fun p hp => (h p hp).tp.topic)
    (fun p => word_append_ne_nil _ _) (fun p hp _ => parses_listOffsetsEntry version (h p hp))
    (by omega), rfl, rfl, regrouped_topicsValue _ _ _⟩

theorem answered_fetch {parts : List FetchPartitionResponse} (h : ∀ p ∈ parts, FetchSendable p) :
    Answered version cid (encodeFetchResponse 65536 cid parts version) (.fetch parts) := by
  rw [encodeFetchResponse_eq]
  refine ⟨⟨_, rfl⟩, fun hlen => ?_⟩
  exact ⟨_, message_grouped rfl hcid (fun p hp => (h p hp).tp.topic)
    (fun p => word_append_ne_nil _ _) (fun p hp => parses_fetchEntry version (h p hp))
    (by omega), rfl, rfl, regrouped_topicsValue _ _ _⟩

theorem answered_offsetCommit {parts : List OffsetCommitPartitionResponse}
    (h : ∀ p ∈ parts, OffsetCommitSendable p) :
    Answered version cid (encodeOffsetCommitResponse 65536 cid version parts)
      (.offsetCommit parts) := by
  rw [encodeOffsetCommitResponse_eq]
  refine ⟨⟨_, rfl⟩, fun hlen => ?_⟩
  exact ⟨_, message_grouped rfl hcid (fun p hp => (h p hp).tp.topic)
    (fun p => word_append_ne_nil _ _) (fun p hp _ => parses_offsetCommitEntry (h p hp))
    (by omega), rfl, rfl, regrouped_topicsValue _ _ _⟩

theorem answered_offsetFetch {parts : List OffsetFetchPartitionResponse}
    (h : ∀ p ∈ parts, OffsetFetchSendable p) :
    Answered version cid (encodeOffsetFetchResponse 65536 cid version parts 0)
      (.offsetFetch parts) := by
  rw [encodeOffsetFetchResponse_eq]
  refine ⟨⟨_, rfl⟩, fun hlen => ?_⟩
  let reply : GroupedReply OffsetFetchEntry :=
    { correlationId := cid
      throttleTimeMs := 0
      topics := topicsValue (·.tp) OffsetFetchEntry.of parts
      errorCode := if 2 ≤ version then 0 else 0 }
  refine ⟨reply, message_of_parses (by norm_num) hlen fun hbody => ?_, rfl, ite_self 0,
    regrouped_topicsValue (·.tp) OffsetFetchEntry.of parts⟩
  simp only [List.length_append] at hbody
  have htopics : Parses (array (GroupedReply.topic GroupedReply.offsetFetchEntry))
      (topicsBytes (·.tp) offsetFetchBytes parts)
      (topicsValue (·.tp) OffsetFetchEntry.of parts) :=
    parses_topics (fun p hp => (h p hp).tp.topic) (fun p => word_append_ne_nil _ _)
      (fun p hp _ => parses_offsetFetchEntry (h p hp)) (by omega)
  have hzero : Fits 2 0 := by decide
  refine (parses_word hcid).bind ((parses_throttle version 3).bind (htopics.bind ?_))
  exact ((parses_word hzero).since 2 version 0).bind_pure _

end Responses

/-! ## What the broker holds -/

/-- INTERNAL: everything that a response takes from the broker fits its field, for `n` more
records. -/
structure Speaking (n : ℕ) (b : Broker) : Prop where
  config : b.config = {}
  offsets : OffsetsFit b n
  logs : AllLogs (fun log => log.startOffset = 0) b
  topics : ∀ t ∈ b.knownTopics, t.length < 2 ^ 15
  groups : Speakable b.groupMgr

theorem speaking_new (n : ℕ) : Speaking n {} where
  config := rfl
  offsets := offsetsFit_new
  logs := ⟨rfl, fun _ _ h => by cases h⟩
  topics _ h := absurd h List.not_mem_nil
  groups := speakable_new

section Logs

/-- INTERNAL: an append does not move the start of the log. -/
theorem startOffset_commit (log : PartitionLog) (batch : RecordBatch) (buf : Bytes) :
    (log.commit batch buf).startOffset = log.startOffset := by
  have hbytes : (log.appendBytes buf).1.startOffset = log.startOffset := by
    unfold PartitionLog.appendBytes PartitionLog.startOffset PartitionLog.segments
    simp only [LogSegment.append, PartitionLog.rollSegment]
    cases log.sealed with
    | nil => split_ifs <;> rfl
    | cons s rest => split_ifs <;> rfl
  exact hbytes

theorem startOffset_append {log log' : PartitionLog} {batch : RecordBatch} {offset : ℤ}
    (h : log.startOffset = 0) (happ : log.append batch = some (log', offset)) :
    log'.startOffset = 0 := by
  obtain ⟨-, out, -, rfl⟩ := BatchSerialization.append_eq_some_iff.mp happ
  rw [startOffset_commit, h]

end Logs

section Broker

variable {n : ℕ} {b : Broker}

theorem Speaking.mono (h : Speaking n b) {k : ℕ} (hle : k ≤ n) : Speaking k b where
  config := h.config
  offsets tp log hfind := by
    obtain ⟨hnonneg, hbound⟩ := h.offsets tp log hfind
    omega
  logs := h.logs
  topics := h.topics
  groups := h.groups

theorem knownTopics_getOrCreateLog {tp : TopicPartition} {t : Bytes}
    (h : t ∈ (b.getOrCreateLog tp).2.knownTopics) : t = tp.topic ∨ t ∈ b.knownTopics := by
  simp only [Broker.getOrCreateLog] at h
  split at h
  · rcases List.mem_append.mp h with h | h
    · exact Or.inr h
    · exact Or.inl (List.mem_singleton.mp h)
  · exact Or.inr h

/-- INTERNAL: the broker can still speak after a log is found or created. -/
theorem Speaking.getOrCreateLog (h : Speaking n b) (hn : n < 2 ^ 63) {tp : TopicPartition}
    (htopic : tp.topic.length < 2 ^ 15) : Speaking n (b.getOrCreateLog tp).2 where
  config := h.config
  offsets := by
    have hroom : AllLogs (fun log => 0 ≤ log.nextOffset ∧ log.nextOffset + n < 2 ^ 63) b :=
      ⟨h.logs.segmentSize, h.offsets⟩
    refine (AllLogs.getOrCreateLog (fun _ _ => ⟨le_refl 0, ?_⟩) hroom tp).2.logs
    show (0 : ℤ) + n < 2 ^ 63
    omega
  logs := (AllLogs.getOrCreateLog (fun _ _ => rfl) h.logs tp).2
  topics t ht := by
    rcases knownTopics_getOrCreateLog ht with rfl | ht
    · exact htopic
    · exact h.topics t ht
  groups := h.groups

/-- INTERNAL: so it can after creating the topics that are asked for. -/
theorem Speaking.metadata (h : Speaking n b) (hn : n < 2 ^ 63) {requested : List Bytes}
    (hrequested : ∀ t ∈ requested, t.length < 2 ^ 15) :
    Speaking n (b.metadata requested).2 := by
  show Speaking n (requested.foldl (fun b topic => (b.getOrCreateLog ⟨topic, 0⟩).2) b)
  induction requested generalizing b with
  | nil => exact h
  | cons topic requested ih =>
    have hfirst : Speaking n (b.getOrCreateLog ⟨topic, 0⟩).2 :=
      h.getOrCreateLog hn (hrequested topic List.mem_cons_self)
    exact ih hfirst fun t ht => hrequested t (List.mem_cons_of_mem _ ht)

/-- INTERNAL: appending `k` records leaves room for `k` fewer. -/
theorem Speaking.append {k : ℕ} (h : Speaking (k + n) b) (hlt : k + n < 2 ^ 63)
    {tp : TopicPartition} (htopic : tp.topic.length < 2 ^ 15) {log : PartitionLog}
    (hnext : log.nextOffset = (b.getOrCreateLog tp).1.nextOffset + k)
    (hstart : log.startOffset = 0) : Speaking n (afterAppend b tp log) where
  config := h.config
  offsets := h.offsets.append hlt hnext
  logs := (AllLogs.getOrCreateLog (fun _ _ => rfl) h.logs tp).2.put rfl hstart rfl
  topics := (h.getOrCreateLog hlt htopic).topics
  groups := h.groups

/-- INTERNAL: **every batch is appended**, and the broker can still speak. -/
theorem Speaking.produceBatches {batches : List RecordBatch}
    (h : Speaking ((batches.map fun batch => batch.records.length).sum + n) b)
    (hlt : (batches.map fun batch => batch.records.length).sum + n < 2 ^ 63)
    (hsmall : ∀ batch ∈ batches, ∀ r ∈ batch.records, r.totalSize < 2 ^ 31)
    (htopics : ∀ batch ∈ batches, batch.topicPartition.topic.length < 2 ^ 15) :
    ∃ (assigned : List (TopicPartition × ℤ)) (b' : Broker),
      Broker.produceBatches batches (some b) = (assigned.map answer, some b') ∧
      assigned.map Prod.fst = batches.map RecordBatch.topicPartition ∧
      (∀ a ∈ assigned, Fits 8 a.2) ∧ Speaking n b' := by
  induction batches generalizing b with
  | nil =>
    refine ⟨[], b, rfl, rfl, fun a ha => absurd ha List.not_mem_nil, h.mono ?_⟩
    exact Nat.le_add_left n _
  | cons batch rest ih =>
    rw [List.map_cons, List.sum_cons, Nat.add_assoc] at h hlt
    obtain ⟨out, -, happ⟩ := exists_append_of_totalSize
      (b.getOrCreateLog batch.topicPartition).1 (hsmall batch List.mem_cons_self)
    obtain ⟨hnonneg, hbound⟩ := h.offsets.getOrCreateLog hlt batch.topicPartition
    have hstart := startOffset_append
      (AllLogs.getOrCreateLog (fun _ _ => rfl) h.logs batch.topicPartition).1 happ
    have hafter := h.append hlt (htopics batch List.mem_cons_self)
      (BatchSerialization.nextOffset_commit _ _ batch out) hstart
    obtain ⟨assigned, b', hproduce, htps, hfits, hspeaking⟩ := ih hafter (by omega)
      (fun c hc => hsmall c (List.mem_cons_of_mem _ hc))
      (fun c hc => htopics c (List.mem_cons_of_mem _ hc))
    refine ⟨(batch.topicPartition, (b.getOrCreateLog batch.topicPartition).1.nextOffset) :: assigned,
      b', ?_, ?_, ?_, hspeaking⟩
    · rw [produceBatches_cons happ, hproduce]
      rfl
    · rw [List.map_cons, List.map_cons, htps]
    · intro a ha
      rcases List.mem_cons.mp ha with rfl | ha
      · exact fits_eight_of_bounds (by omega) (by omega)
      · exact hfits a ha

theorem Speaking.onGroups (h : Speaking n b) (call : GroupCall) (hcall : Spoken call) :
    Speaking n { b with groupMgr := call.apply b.groupMgr } where
  config := h.config
  offsets := h.offsets
  logs := ⟨h.logs.segmentSize, h.logs.logs⟩
  topics := h.topics
  groups := h.groups.apply hcall

/-! ## Serving one call -/

/-- INTERNAL: the partitions of a request are those of its topics. -/
theorem sendable_byPartition {π α : Type} {entry : Bytes → π → α} (tp : α → TopicPartition)
    (index : π → Word 4) (h : ∀ topic p, tp (entry topic p) = ⟨topic, index p⟩)
    (ts : WireList (Topic π)) : ∀ x ∈ byPartition entry ts, TopicPartition.Sendable (tp x) := by
  intro x hx
  obtain ⟨t, -, hx⟩ := List.mem_flatMap.mp hx
  obtain ⟨p, -, rfl⟩ := List.mem_map.mp hx
  rw [h]
  exact ⟨t.name.2, (index p).2⟩

theorem Speaking.fits_nextOffset (h : Speaking n b) {tp : TopicPartition} {log : PartitionLog}
    (hfind : b.shardedLogs.find tp = some log) : Fits 8 log.nextOffset := by
  obtain ⟨hnonneg, hbound⟩ := h.offsets tp log hfind
  exact fits_eight_of_bounds (by omega) (by omega)

/-- INTERNAL: what ListOffsets answers fits its fields. -/
theorem Speaking.listOffsetsPartition (h : Speaking n b) {pr : ListOffsetsPartition}
    (htp : TopicPartition.Sendable pr.tp) : ListOffsetsSendable (b.listOffsetsPartition pr) := by
  have hzero : Fits 2 0 := by decide
  have hunknown : Fits 2 3 := by decide
  have hnone : Fits 8 (-1) := by decide
  have hstart : Fits 8 0 := by decide
  unfold Broker.listOffsetsPartition
  cases hfind : b.shardedLogs.find pr.tp with
  | none => exact ⟨htp, hunknown, hnone, hstart⟩
  | some log =>
    refine ⟨htp, hzero, hnone, ?_⟩
    have hfirst := h.logs.logs pr.tp log hfind
    show Fits 8 (if pr.timestamp = -2 then log.startOffset else
      if pr.timestamp = -1 then log.nextOffset else log.startOffset)
    rw [hfirst]
    split
    · exact hstart
    · split
      · exact h.fits_nextOffset hfind
      · exact hstart

theorem highWatermark_read (log : PartitionLog) (startOffset maxBytes : ℤ) :
    (log.read startOffset maxBytes).highWatermark = log.nextOffset := by
  unfold PartitionLog.read
  dsimp only
  split
  · rfl
  · split
    · rfl
    · split
      · rfl
      · split <;> rfl

/-- INTERNAL: what Fetch answers fits its fields. -/
theorem Speaking.fetchPartition (h : Speaking n b) {pf : PartitionFetch}
    (htp : TopicPartition.Sendable pf.tp) : FetchSendable (b.fetchPartition pf) := by
  have hzero : Fits 2 0 := by decide
  have hunknown : Fits 2 3 := by decide
  have hnone : Fits 8 (-1) := by decide
  unfold Broker.fetchPartition
  cases hfind : b.shardedLogs.find pf.tp with
  | none => exact ⟨htp, hunknown, hnone⟩
  | some log =>
    refine ⟨htp, hzero, ?_⟩
    show Fits 8 (log.read pf.fetchOffset pf.partitionMaxBytes).highWatermark
    rw [highWatermark_read]
    exact h.fits_nextOffset hfind

/-- INTERNAL: the errors of SyncGroup, Heartbeat and LeaveGroup. -/
theorem fits_errors (mgr : ConsumerGroupManager) (env : GroupEnv) :
    (∀ q, Fits 2 (mgr.syncGroup q).2.errorCode) ∧ (∀ q, Fits 2 (mgr.heartbeat env q).2) ∧
      ∀ q, Fits 2 (mgr.leaveGroup env q).2 := by
  have h0 : Fits 2 0 := by decide
  have h22 : Fits 2 22 := by decide
  have h25 : Fits 2 25 := by decide
  have h27 : Fits 2 27 := by decide
  refine ⟨fun q => ?_, fun q => ?_, fun q => ?_⟩
  · unfold ConsumerGroupManager.syncGroup
    split
    · exact h25
    · split
      · exact h25
      · split
        · exact h22
        · exact h0
  · unfold ConsumerGroupManager.heartbeat
    split
    · exact h25
    · split
      · exact h25
      · split
        · exact h22
        · dsimp only
          split
          · exact h27
          · exact h0
  · unfold ConsumerGroupManager.leaveGroup
    split
    · exact h0
    · split
      · exact h25
      · exact h0

/-- INTERNAL: a request is performed, and what the router answers tells the result. -/
def Served (n : ℕ) (env : GroupEnv) (b : Broker) (r : RoutedRequest) (version : ℕ) : Prop :=
  ∃ result b' response call, perform env b r.body = some (result, b') ∧
    dispatch (Broker.handlers env) 65536 r (some b) = ⟨call, some b', response⟩ ∧
    Answered version r.correlationId response result ∧ Speaking n b'

/-- INTERNAL: the strings of a JoinGroup request, and the id that its sender joins under. -/
theorem spoken_join (env : GroupEnv) (msg : JoinGroupMessage) (cid : Word 4)
    (clientId : Option ShortString)
    (hid : ServiceCall.IdFits (.request cid clientId (.joinGroup msg))) :
    Spoken (.join env (msg.request cid ((clientId.map Subtype.val).getD []))) := by
  have hclient : ((clientId.map Subtype.val).getD []).length < 2 ^ 15 := by
    cases clientId with
    | none => exact length_nil_lt
    | some name => exact name.2
  refine ⟨⟨cid.2, hclient, msg.memberId.2, ?_⟩, ?_⟩
  · intro p hp
    obtain ⟨x, -, rfl⟩ := List.mem_map.mp hp
    exact x.name.2
  · unfold joinerId
    split
    · next hnew =>
      rw [length_generateMemberId]
      exact hid hnew
    · exact msg.memberId.2

/-- INTERNAL: each of the nine requests on groups, offsets and logs is served. -/
theorem served_request (h : Speaking n b) (env : GroupEnv) (cid : Word 4)
    (clientId : Option ShortString) (msg : RequestMessage)
    (hid : ServiceCall.IdFits (.request cid clientId msg)) :
    Served n env b ⟨cid, msg.version, msg.request cid ((clientId.map Subtype.val).getD [])⟩
      msg.version := by
  have hcid := cid.2
  obtain ⟨hsync, hheartbeat, hleave⟩ := fits_errors b.groupMgr env
  cases msg with
  | fetch msg =>
    refine ⟨_, b, _, _, rfl, rfl, answered_fetch hcid fun p hp => ?_, h⟩
    obtain ⟨pf, hpf, rfl⟩ := List.mem_map.mp hp
    exact h.fetchPartition (sendable_byPartition PartitionFetch.tp FetchPartitionMessage.index
      (fun _ _ => rfl) _ pf hpf)
  | listOffsets msg =>
    refine ⟨_, b, _, _, rfl, rfl, answered_listOffsets hcid fun p hp => ?_, h⟩
    obtain ⟨pr, hpr, rfl⟩ := List.mem_map.mp hp
    exact h.listOffsetsPartition (sendable_byPartition ListOffsetsPartition.tp
      ListOffsetsPartitionMessage.index (fun _ _ => rfl) _ pr hpr)
  | offsetCommit msg =>
    refine ⟨_, _, _, _, rfl, rfl, answered_offsetCommit hcid fun p hp => ?_,
      h.onGroups (.offsetCommit (msg.request cid)) fun p hp => ?_⟩
    · obtain ⟨pr, hpr, rfl⟩ := List.mem_map.mp hp
      have hzero : Fits 2 0 := by decide
      exact ⟨sendable_byPartition OffsetCommitPartitionRequest.tp
        OffsetCommitPartitionMessage.index (fun _ _ => rfl) _ pr hpr, hzero⟩
    · obtain ⟨t, -, hp⟩ := List.mem_flatMap.mp hp
      obtain ⟨p, -, rfl⟩ := List.mem_map.mp hp
      refine ⟨p.offset.2, ?_⟩
      show ((p.metadata.map Subtype.val).getD []).length < 2 ^ 15
      cases p.metadata with
      | none => exact length_nil_lt
      | some m => exact m.2
  | offsetFetch msg =>
    refine ⟨_, b, _, _, rfl, rfl, answered_offsetFetch hcid (h.groups.offsetFetch ?_), h⟩
    intro p hp
    cases htopics : msg.topics with
    | none =>
      have hnothing : (msg.request cid).partitions = [] := by
        simp only [OffsetFetchMessage.request, htopics, Option.elim_none]
      rw [hnothing] at hp
      exact absurd hp List.not_mem_nil
    | some ts =>
      have hlist : (msg.request cid).partitions = byPartition partitionRequest ts := by
        simp only [OffsetFetchMessage.request, htopics, Option.elim_some]
      rw [hlist] at hp
      exact sendable_byPartition OffsetFetchPartitionRequest.tp id (fun _ _ => rfl) ts p hp
  | findCoordinator msg =>
    refine ⟨_, b, _, _, rfl, rfl, answered_findCoordinator hcid ?_, h⟩
    rw [Broker.findCoordinator, Broker.advertisedHost, h.config]
    exact ⟨by decide, by decide, by decide, by decide⟩
  | joinGroup msg =>
    have hspoken := spoken_join env msg cid clientId hid
    obtain ⟨herror, hgeneration, hsendable⟩ := h.groups.joinGroup hspoken
    exact ⟨_, _, _, _, rfl, rfl, answered_joinGroup hcid herror hgeneration hsendable,
      h.onGroups _ hspoken⟩
  | syncGroup msg =>
    exact ⟨_, _, _, _, rfl, rfl, answered_syncGroup hcid (hsync _),
      h.onGroups (.sync (msg.request cid)) trivial⟩
  | heartbeat msg =>
    exact ⟨_, _, _, _, rfl, rfl, answered_heartbeat hcid (hheartbeat _),
      h.onGroups (.heartbeat env (msg.request cid)) trivial⟩
  | leaveGroup msg =>
    exact ⟨_, _, _, _, rfl, rfl, answered_leaveGroup hcid (hleave _),
      h.onGroups (.leave env (msg.request cid)) trivial⟩

/-- INTERNAL: what the handler answers holds the offsets that were assigned. -/
theorem assignedOffsets_answer {batches : List RecordBatch} {assigned : List (TopicPartition × ℤ)}
    (h : assigned.map Prod.fst = batches.map RecordBatch.topicPartition) :
    assignedOffsets batches (assigned.map answer) = assigned := by
  induction batches generalizing assigned with
  | nil =>
    rw [List.map_nil, List.map_eq_nil_iff] at h
    rw [h]
    rfl
  | cons batch rest ih =>
    obtain ⟨a, as, rfl, ha, has⟩ := List.map_eq_cons_iff.mp h
    rw [List.map_cons, assignedOffsets, List.zipWith_cons_cons, ← ha]
    exact congrArg _ (ih has)

/-- INTERNAL: a Produce request is served. -/
theorem served_produce (env : GroupEnv) {msg : ProduceMessage}
    (h : Speaking (msg.recordCount + n) b) (hlt : msg.recordCount + n < 2 ^ 63)
    {q : ProduceRequest} (hreceived : List.Forall₂ Received msg.partitions q.batches) :
    ∃ assigned b' response call, perform env b (.produce q) = some (.produce assigned, b') ∧
      dispatch (Broker.handlers env) 65536 ⟨msg.correlationId, msg.version.val, .produce q⟩ (some b) =
        ⟨call, some b', response⟩ ∧ (∃ body, response = wireBytes body) ∧
      (ServiceCall.OneLayout (.produce msg) → response.length ≤ 65536 →
        Understands msg.version.val msg.correlationId response (.produce assigned)) ∧
      Speaking n b' := by
  have htps := topicPartitions_eq hreceived
  have htopics : ∀ batch ∈ q.batches, batch.topicPartition.topic.length < 2 ^ 15 := by
    intro batch hbatch
    have hmem : batch.topicPartition ∈ msg.topicPartitions := htps ▸ List.mem_map_of_mem hbatch
    exact (topicPartition_fits hmem).1
  rw [← recordCount_eq hreceived] at h hlt
  obtain ⟨assigned, b', hproduce, hassigned, hfits, hspeaking⟩ :=
    h.produceBatches hlt (small_of_received hreceived) htopics
  have hresponse : encodeProduceResponse 65536 msg.correlationId (assigned.map answer)
      (produceTopic q) = wireBytes (replyBytes msg.correlationId (firstTopic msg.topicPartitions)
        (assigned.map answer)) := by
    rw [encodeProduceResponse_eq, produceTopic_eq, htps]
  refine ⟨assigned, b', _, some (.produce q), ?_, ?_, ⟨_, hresponse⟩, fun hsuits hlen => ?_,
    hspeaking⟩
  · simp only [perform, hproduce, Option.map_some, assignedOffsets_answer hassigned]
  · simp only [dispatch, RequestRouter.call, Broker.handlers, hproduce]
  · rw [htps] at hassigned
    refine (tells_iff_suitsEncoder hassigned (fun a ha => ⟨?_, hfits a ha⟩) hresponse hlen).mpr
      (Or.inl hsuits)
    have hmem : a.1 ∈ msg.topicPartitions := hassigned ▸ List.mem_map_of_mem ha
    exact (topicPartition_fits hmem).2

/-- INTERNAL: a Metadata request is served. -/
theorem served_metadata (h : Speaking n b) (hn : n < 2 ^ 63) (env : GroupEnv) (cid : Word 4)
    (topics : WireList ShortString) :
    Served n env b ⟨cid, 0, .metadata (topics.val.map Subtype.val)⟩ 0 := by
  have hrequested : ∀ t ∈ topics.val.map Subtype.val, t.length < 2 ^ 15 := by
    intro t ht
    obtain ⟨s, -, rfl⟩ := List.mem_map.mp ht
    exact s.2
  have hafter := h.metadata hn hrequested
  refine ⟨_, _, _, _, rfl, rfl, answered_metadata cid.2 ?_, hafter⟩
  have hone : (0 : ℤ) ≤ 1 := by decide
  refine ⟨?_, ?_, ?_, ?_, hone⟩
  · show Fits 4 (b.metadata (topics.val.map Subtype.val)).2.config.brokerId
    rw [hafter.config]
    decide
  · show (b.metadata (topics.val.map Subtype.val)).2.advertisedHost.length < 2 ^ 15
    rw [Broker.advertisedHost, hafter.config]
    decide
  · show Fits 4 (b.metadata (topics.val.map Subtype.val)).2.config.port
    rw [hafter.config]
    decide
  · show ∀ name ∈ (if topics.val.map Subtype.val = [] then
      (b.metadata (topics.val.map Subtype.val)).2.knownTopics else _), name.length < 2 ^ 15
    split
    · exact hafter.topics
    · exact hrequested

/-- INTERNAL: a frame that the router decodes to what the call denotes. -/
theorem exchange_of_served (env : GroupEnv) {call : ServiceCall} {request : Request}
    (hdecode : ∃ rest, (decodeRequest true).run (Memory.ofBytes call.frame)
      { length := call.frame.length } = some (⟨call.correlationId, call.version, request⟩, rest))
    (hdenotes : call.Denotes request)
    (hserved : Served n env b ⟨call.correlationId, call.version, request⟩ call.version) :
    ∃ response b', Broker.route env call.frame (some b) = (response, some b') ∧
      Exchange env b call response b' ∧ Speaking n b' := by
  obtain ⟨rest, hdecode⟩ := hdecode
  obtain ⟨result, b', response, c, hperform, hdispatch, hanswered, hspeaking⟩ := hserved
  refine ⟨response, b', ?_, ⟨hanswered.framed, request, result, hdenotes, hperform,
    fun _ => hanswered.understood⟩, hspeaking⟩
  rw [route_of_decoded env hdecode, hdispatch]

/-- INTERNAL: **the step lemma:** a call is served, and the broker can serve the next one. -/
theorem exists_exchange (env : GroupEnv) {call : ServiceCall} (hlen : call.frame.length < 2 ^ 31)
    (hshort : call.Short) (hid : call.IdFits) (h : Speaking (call.recordCount + n) b)
    (hlt : call.recordCount + n < 2 ^ 63) :
    ∃ response b', Broker.route env call.frame (some b) = (response, some b') ∧
      Exchange env b call response b' ∧ Speaking n b' := by
  have hbytes := (Memory.holds_ofBytes call.frame).at_zero hlen
  have hless := h.mono (Nat.le_add_left n _)
  obtain ⟨request, rest, hdecode, hdenotes⟩ :=
    exists_decoded true call.frame.length hlen hshort hbytes
  cases call with
  | produce msg =>
    obtain ⟨q, rest, hdecode, hreceived⟩ := (exists_decodeRequest_produce hlen hbytes true _).1 hshort
    obtain ⟨assigned, b', response, c, hperform, hdispatch, hframed, hunderstood, hspeaking⟩ :=
      served_produce env h hlt hreceived
    have hrecords : q.batches.map (fun b => b.records.map Record.data) =
        msg.partitions.map fun p => p.2.records.map fun r => some r.bytes :=
      map_eq_of_forall₂ (hreceived.imp fun _ _ hr => hr.records)
    refine ⟨response, b', ?_, ⟨hframed, .produce q, _,
      ⟨q, rfl, topicPartitions_eq hreceived, hrecords⟩, hperform, hunderstood⟩, hspeaking⟩
    rw [route_of_decoded env hdecode, hdispatch]
  | apiVersions version cid rest =>
    obtain rfl := hdenotes rfl
    exact exchange_of_served env ⟨_, hdecode⟩ rfl
      ⟨_, b, _, _, rfl, rfl, answered_apiVersions cid.2, hless⟩
  | metadata cid clientId topics =>
    obtain rfl := hdenotes rfl
    exact exchange_of_served env ⟨_, hdecode⟩ rfl (served_metadata hless (by omega) env cid topics)
  | request cid clientId msg =>
    obtain rfl := hdenotes rfl
    exact exchange_of_served env ⟨_, hdecode⟩ rfl (served_request hless env cid clientId msg hid)

end Broker

/-! ## Serving a sequence of calls -/

/-- The frames of some calls, in order. -/
def frames (calls : List (GroupEnv × ServiceCall)) : List Bytes :=
  calls.map fun c => c.2.frame

def recordTotal (calls : List (GroupEnv × ServiceCall)) : ℕ :=
  (calls.map fun c => c.2.recordCount).sum

/-- The call can be sent in one frame, its varints can be read, an id made for its sender fits a
string, and what it produces to a partition has a record. -/
structure CanBeMade (call : ServiceCall) : Prop where
  length : call.frame.length ≤ TcpServer.kMaxFrameSize
  short : call.Short
  idFits : call.IdFits
  fills : call.Fills

theorem CanBeMade.length_lt {call : ServiceCall} (h : CanBeMade call) :
    call.frame.length < 2 ^ 31 :=
  lt_of_le_of_lt h.length (by decide)

/-- The partitions that the calls may create a log for. -/
def namedPartitions (calls : List (GroupEnv × ServiceCall)) : List TopicPartition :=
  calls.flatMap fun c => c.2.partitions

/-- INTERNAL: the broker and the moments still to come, after some frames. -/
def stateAfter (fs : List Bytes) (s : Option Broker × List GroupEnv) :
    Option Broker × List GroupEnv :=
  fs.foldl (fun s f => (routeInTurn f s).2) s

/-- INTERNAL: **the run lemma:** each call is served in the state that the one before it left. -/
theorem exists_exchanges {calls : List (GroupEnv × ServiceCall)} {b : Broker}
    (hcalls : ∀ c ∈ calls, CanBeMade c.2) (h : Speaking (recordTotal calls) b)
    (hlt : recordTotal calls < 2 ^ 63) (more : List GroupEnv) :
    ∃ responses b', Exchanges b calls responses b' ∧
      replies routeInTurn (frames calls) (some b, calls.map Prod.fst ++ more) = responses ∧
      stateAfter (frames calls) (some b, calls.map Prod.fst ++ more) = (some b', more) := by
  induction calls generalizing b with
  | nil => exact ⟨[], b, .nil b, rfl, rfl⟩
  | cons c calls ih =>
    obtain ⟨env, call⟩ := c
    have hcall := hcalls (env, call) List.mem_cons_self
    have htotal : recordTotal ((env, call) :: calls) = call.recordCount + recordTotal calls :=
      List.sum_cons
    rw [htotal] at h hlt
    obtain ⟨response, b₁, hroute, hexchange, hspeaking⟩ :=
      exists_exchange env hcall.length_lt hcall.short hcall.idFits h hlt
    obtain ⟨responses, b', hrest, hreplies, hstate⟩ :=
      ih (fun c hc => hcalls c (List.mem_cons_of_mem _ hc)) hspeaking (by omega)
    have hturn : routeInTurn call.frame (some b, ((env, call) :: calls).map Prod.fst ++ more) =
        (response, some b₁, calls.map Prod.fst ++ more) := by
      show ((Broker.route env call.frame (some b)).1, (Broker.route env call.frame (some b)).2, _) = _
      rw [hroute]
      rfl
    refine ⟨response :: responses, b', .cons hexchange hrest, ?_, ?_⟩
    · -- a message is never empty, so every call gets its response
      obtain ⟨body, hbody⟩ := hexchange.framed
      have hpos : response.length > 0 := by
        rw [hbody, wireBytes, List.length_append, length_beInt]
        omega
      show reply routeInTurn call.frame _ ++ replies routeInTurn (frames calls) _ = _
      rw [reply, hturn, if_pos hpos, hreplies]
      rfl
    · show stateAfter (frames calls) (routeInTurn call.frame _).2 = _
      rw [hturn]
      exact hstate

theorem Exchanges.framed {b b' : Broker} {calls : List (GroupEnv × ServiceCall)}
    {responses : List Bytes} (h : Exchanges b calls responses b') :
    ∀ r ∈ responses, ∃ body, r = wireBytes body := by
  induction h with
  | nil => exact fun r hr => absurd hr List.not_mem_nil
  | cons first _ ih =>
    intro r hr
    rcases List.mem_cons.mp hr with rfl | hr
    · exact first.framed
    · exact ih r hr

/-! ## The connection -/

section Connection

variable {σ : Type} (route : Bytes → σ → Bytes × σ) (start : σ)

/-- INTERNAL: what is queued, and the state, come from the frames handed to the router. -/
def Tracks (s : Session Bytes σ) : Prop :=
  s.queued.map Prod.fst = replies route s.routed start ∧
    s.state = s.routed.foldl (fun state f => (route f state).2) start

theorem tracks_processFrame {s : Session Bytes σ} (h : Tracks route start s) (n : ℕ) :
    Tracks route start (TcpServer.processFrame route s n) := by
  obtain ⟨hqueued, hstate⟩ := h
  obtain ⟨-, hrouted, -, -, hnext⟩ :=
    answerFrame_fields route s (TcpServer.frameData s.conn.readBuf n)
  obtain ⟨hreply, -⟩ := answerFrame_queued route s (TcpServer.frameData s.conn.readBuf n)
  constructor
  · show (TcpServer.answerFrame route s _).queued.map Prod.fst =
      replies route (TcpServer.answerFrame route s _).routed start
    rw [hreply, hrouted, replies_append, hqueued, ← hstate, replies, replies, List.append_nil]
  · show (TcpServer.answerFrame route s _).state = _
    rw [hnext, hstate]
    show _ = (TcpServer.answerFrame route s _).routed.foldl _ start
    rw [hrouted, List.foldl_append]
    rfl

theorem kept_tracks : Kept (tcpServer route) (Tracks route start) where
  recv s bs s' h hrecv := by
    obtain ⟨b, -, rfl⟩ := recv_eq_some_iff.mp hrecv
    exact h
  send s n s' h hsend := by
    obtain ⟨bs, b, -, rfl⟩ := send_eq_some_iff.mp hsend
    exact h
  process s h := processFrames_invariant route (P := Tracks route start)
    (fun _ n ht _ _ => tracks_processFrame route start ht n) (fun _ ht => ht) _ h
  drained _ h := h
  close _ h := h

end Connection

/-- A client without a name asks for the metadata of topic `a`, produces a record to each of two
partitions of it and fetches one of them from the beginning. -/
def threeCalls : List ServiceCall :=
  [.metadata (wordOf 4 1) none ⟨[topicA], by decide⟩, .produce requestForTwo,
    .request (wordOf 4 8) none (.fetch
      { version := 4
        replicaId := wordOf 4 (-1)
        maxWaitMs := wordOf 4 0
        minBytes := wordOf 4 1
        maxBytes := wordOf 4 65536
        isolationLevel := wordOf 1 0
        topics := ⟨[⟨topicA, ⟨[⟨wordOf 4 0, wordOf 8 0, wordOf 4 65536⟩], by decide⟩⟩], by decide⟩ })]

theorem canBeMade_threeCalls : ∀ call ∈ threeCalls, CanBeMade call := by
  have hlen : ∀ call ∈ threeCalls, call.frame.length ≤ TcpServer.kMaxFrameSize := by
    decide +kernel
  unfold threeCalls at hlen ⊢
  simp only [List.forall_mem_cons] at hlen ⊢
  exact ⟨⟨hlen.1, trivial, trivial, trivial⟩,
    ⟨hlen.2.1, (by decide +kernel : requestForTwo.Short), trivial,
      (by decide +kernel : ∀ p ∈ requestForTwo.partitions, p.2.records ≠ [])⟩,
    ⟨hlen.2.2.1, trivial, trivial, trivial⟩, fun _ h => absurd h List.not_mem_nil⟩

end StrikeMQ.Analysis.KafkaService
