import StrikeMQ.Interface.ServiceReplies
import StrikeMQ.Analysis.ResponseRegrouping

/-!
# The other responses say what they were made from

Six encoders write responses that do not list partitions by topic. What each of them appends is
laid out field by field, in the order of the schema of the version; a client that parses the
response finds what the encoder was given. The counts of a Metadata response, and the length of an
assignment, fit their fields as soon as the response is shorter than `2 ^ 31` bytes.
-/

set_option autoImplicit false

namespace StrikeMQ.Analysis.ServiceReplies

open StrikeMQ.Lib StrikeMQ.Lib.Parser StrikeMQ.Model StrikeMQ.Model.KafkaEncoder
open StrikeMQ.Interface StrikeMQ.Analysis.WireWriting
open StrikeMQ.Analysis.ResponseRegrouping (throttleBytes parses_throttle)

variable {cap version : ℕ} {cid : ℤ}

theorem message_of_parses {α : Type} {p : Parser α} {body : Bytes} {v : α} (hcap : cap < 2 ^ 31)
    (hlen : (wireBytes body).length ≤ cap) (h : body.length < 2 ^ 31 → Parses p body v) :
    message p (wireBytes body) = some v := by
  rw [wireBytes, List.length_append] at hlen
  exact message_wireBytes (h (by omega)) (by omega)

/-! ## ApiVersions -/

def apiBytes (a : ℤ × ℤ × ℤ) : Bytes :=
  beInt 2 a.1 ++ (beInt 2 a.2.1 ++ beInt 2 a.2.2)

def taggedApiBytes (a : ℤ × ℤ × ℤ) : Bytes :=
  apiBytes a ++ uvarint 5 0

/-- The list of the advertised APIs, compact from version 3 on. -/
def apisBytes (version : ℕ) : Bytes :=
  if 3 ≤ version then uvarint 5 (apis.length + 1) ++ apis.flatMap taggedApiBytes
  else wireArray apiBytes apis

def apiVersionsBytes (version : ℕ) (cid : ℤ) : Bytes :=
  beInt 4 cid ++ (beInt 2 0 ++ (apisBytes version ++ (throttleBytes version 1 ++
    if 3 ≤ version then uvarint 5 0 else [])))

theorem data_writeApi (w : BinaryWriter) (a : ℤ × ℤ × ℤ) :
    (writeApi w a).data = w.data ++ apiBytes a := by
  simp only [writeApi, data_writeInt16, apiBytes, List.append_assoc]

theorem data_writeInt8 (w : BinaryWriter) (v : ℤ) : (w.writeInt8 v).data = w.data ++ beInt 1 v :=
  rfl

theorem data_writeUvarint (w : BinaryWriter) (n : ℕ) :
    (w.writeUvarint n).data = w.data ++ BinaryWriter.uvarintBytes 5 n :=
  rfl

theorem data_writeTaggedApi (w : BinaryWriter) (a : ℤ × ℤ × ℤ) :
    ((writeApi w a).writeInt8 0).data = w.data ++ taggedApiBytes a := by
  have htag : beInt 1 0 = uvarint 5 0 := by decide
  rw [data_writeInt8, data_writeApi, List.append_assoc, htag]
  rfl

/-- INTERNAL: the bytes of an ApiVersions response. -/
theorem encodeApiVersionsResponse_eq :
    encodeApiVersionsResponse cap cid version = wireBytes (apiVersionsBytes version cid) := by
  refine encodeFrame_eq fun w => ?_
  unfold apiVersionsBytes apisBytes throttleBytes
  by_cases hthree : 3 ≤ version
  · have hcast : (version : ℤ) ≥ 3 := by omega
    have hone : 1 ≤ version := by omega
    have hcount : BinaryWriter.uvarintBytes 5 (13 + 1) = uvarint 5 (apis.length + 1) := by decide
    have htag : beInt 1 0 = uvarint 5 0 := by decide
    rw [if_pos hcast, if_pos hthree, if_pos hone, if_pos hthree]
    dsimp only
    rw [data_writeInt8, data_writeInt32, data_foldl _ data_writeTaggedApi, data_writeUvarint,
      data_writeInt16, data_writeInt32, hcount, htag]
    simp only [List.append_assoc]
  · have hcast : ¬ (version : ℤ) ≥ 3 := by omega
    rw [if_neg hcast, if_neg hthree, if_neg hthree, List.append_nil]
    have hlist : (apis.foldl writeApi (((w.writeInt32 cid).writeInt16 0).writeInt32 13)).data =
        w.data ++ (beInt 4 cid ++ (beInt 2 0 ++ wireArray apiBytes apis)) := by
      rw [data_foldl _ data_writeApi, data_writeInt32, data_writeInt16, data_writeInt32, wireArray]
      simp only [List.append_assoc]
      rfl
    by_cases hone : 1 ≤ version
    · have hcastone : (version : ℤ) ≥ 1 := by omega
      rw [if_pos hone, if_pos hcastone, data_writeInt32, hlist]
      simp only [List.append_assoc]
    · have hcastone : ¬ (version : ℤ) ≥ 1 := by omega
      rw [if_neg hone, if_neg hcastone, hlist, List.append_nil]

theorem fits_apis : ∀ a ∈ apis, Fits 2 a.1 ∧ Fits 2 a.2.1 ∧ Fits 2 a.2.2 := by
  decide

theorem parses_api {a : ℤ × ℤ × ℤ} (h : a ∈ apis) :
    Parses ApiVersionsReply.api (apiBytes a) a := by
  obtain ⟨hkey, hlowest, hhighest⟩ := fits_apis a h
  exact (parses_word hkey).bind ((parses_word hlowest).bind ((parses_word hhighest).bind_pure _))

theorem parses_taggedApi {a : ℤ × ℤ × ℤ} (h : a ∈ apis) :
    Parses ApiVersionsReply.taggedApi (taggedApiBytes a) a :=
  (parses_api h).bind (parses_tags_nil.bind_pure fun _ => a)

theorem parses_apis (version : ℕ) :
    Parses (ApiVersionsReply.list version) (apisBytes version) apis := by
  unfold ApiVersionsReply.list apisBytes
  split
  · have hall : ∀ a ∈ apis, Parses ApiVersionsReply.taggedApi (taggedApiBytes a) (id a) :=
      fun _ => parses_taggedApi
    have hlist := parses_compactArray (by decide) hall
    rwa [List.map_id] at hlist
  · have hall : ∀ a ∈ apis, Parses ApiVersionsReply.api (apiBytes a) (id a) :=
      fun _ => parses_api
    have hlist := parses_array (by decide) hall
    rwa [List.map_id] at hlist

theorem parses_apiVersions (hcid : Fits 4 cid) :
    Parses (ApiVersionsReply.parser version) (apiVersionsBytes version cid)
      (ApiVersionsReply.of cid) := by
  have hzero : Fits 2 0 := by decide
  have htags := parses_tags_nil.since 3 version []
  rw [ite_self] at htags
  refine (parses_word hcid).bind ((parses_word hzero).bind ((parses_apis version).bind ?_))
  exact (parses_throttle version 1).bind (htags.bind_pure _)

/-! ## Metadata -/

def partitionBytes (brokerId : ℤ) (p : ℕ) : Bytes :=
  beInt 2 0 ++ (beInt 4 p ++ (beInt 4 brokerId ++ (wireArray (beInt 4) [brokerId] ++
    wireArray (beInt 4) [brokerId])))

def topicBytes (info : MetadataInfo) (name : Bytes) : Bytes :=
  beInt 2 0 ++ (wireString name ++
    wireArray (partitionBytes info.brokerId) (List.range info.numPartitions.toNat))

def brokerBytes (b : ℤ × Bytes × ℤ) : Bytes :=
  beInt 4 b.1 ++ (wireString b.2.1 ++ beInt 4 b.2.2)

def metadataBytes (cid : ℤ) (info : MetadataInfo) : Bytes :=
  beInt 4 cid ++ (wireArray brokerBytes [(info.brokerId, info.host, (info.port : ℤ))] ++
    wireArray (topicBytes info) info.topics)

theorem data_writePartitionMetadata (brokerId : ℤ) (w : BinaryWriter) (p : ℕ) :
    (writePartitionMetadata brokerId w p).data = w.data ++ partitionBytes brokerId p := by
  simp [writePartitionMetadata, partitionBytes, wireArray]

/-- INTERNAL: the bytes of a Metadata response. -/
theorem encodeMetadataResponse_eq {info : MetadataInfo} (h : 0 ≤ info.numPartitions) :
    encodeMetadataResponse cap cid info = wireBytes (metadataBytes cid info) := by
  have hcount : ((List.range info.numPartitions.toNat).length : ℤ) = info.numPartitions := by
    rw [List.length_range]
    exact Int.toNat_of_nonneg h
  have htopic : ∀ (w : BinaryWriter) (t : Bytes),
      ((List.range info.numPartitions.toNat).foldl (writePartitionMetadata info.brokerId)
        (((w.writeInt16 0).writeString t).writeInt32 info.numPartitions)).data =
        w.data ++ topicBytes info t := by
    intro w t
    rw [data_foldl _ (data_writePartitionMetadata info.brokerId), data_writeInt32,
      data_writeString, data_writeInt16, topicBytes, wireArray, hcount]
    simp only [List.append_assoc]
  refine encodeFrame_eq fun w => ?_
  dsimp only
  rw [data_writeArray _ htopic]
  simp [metadataBytes, brokerBytes, wireArray]

section Metadata

variable {info : MetadataInfo}

theorem parses_wordList {v : ℤ} (h : Fits 4 v) :
    Parses (array (word 4)) (wireArray (beInt 4) [v]) [v] := by
  have hone : ∀ x ∈ [v], Parses (word 4) (beInt 4 x) (id x) := by
    intro x hx
    rw [List.mem_singleton.mp hx]
    exact parses_word h
  exact parses_array (by norm_num) hone

theorem parses_partition {brokerId : ℤ} (h : Fits 4 brokerId) {p : ℕ} (hp : p < 2 ^ 31) :
    Parses MetadataReply.partition (partitionBytes brokerId p)
      ⟨0, p, brokerId, [brokerId], [brokerId]⟩ := by
  have hzero : Fits 2 0 := by decide
  refine (parses_word hzero).bind ((parses_word (fits_four_of_lt hp)).bind ?_)
  exact (parses_word h).bind ((parses_wordList h).bind ((parses_wordList h).bind_pure _))

/-- INTERNAL: a topic takes more bytes than it has partitions. -/
theorem numPartitions_le_length (name : Bytes) :
    info.numPartitions.toNat ≤ (topicBytes info name).length := by
  have hcount : (List.range info.numPartitions.toNat).length ≤
      ((List.range info.numPartitions.toNat).flatMap (partitionBytes info.brokerId)).length := by
    apply length_le_length_flatMap
    intro p _
    rw [← List.length_pos_iff, partitionBytes, List.length_append, length_beInt]
    omega
  rw [List.length_range] at hcount
  simp only [topicBytes, wireArray, List.length_append]
  omega

theorem parses_topic (h : MetadataSendable info) {name : Bytes} (hname : name.length < 2 ^ 15)
    (hlen : (topicBytes info name).length < 2 ^ 31) :
    Parses MetadataReply.topic (topicBytes info name) (MetadataReply.topicOf info name) := by
  have hzero : Fits 2 0 := by decide
  have hcount : info.numPartitions.toNat ≤ (topicBytes info name).length :=
    numPartitions_le_length name
  have hpartitions : ∀ p ∈ List.range info.numPartitions.toNat,
      Parses MetadataReply.partition (partitionBytes info.brokerId p)
        ⟨0, p, info.brokerId, [info.brokerId], [info.brokerId]⟩ := by
    intro p hp
    have hlt := List.mem_range.mp hp
    exact parses_partition h.brokerId (by omega)
  refine (parses_word hzero).bind ((parses_string hname).bind ?_)
  exact (parses_array (by rw [List.length_range]; omega) hpartitions).bind_pure _

theorem parses_metadata (hcid : Fits 4 cid) (h : MetadataSendable info)
    (hlen : (metadataBytes cid info).length < 2 ^ 31) :
    Parses MetadataReply.parser (metadataBytes cid info) (MetadataReply.of cid info) := by
  have htopics : (info.topics.flatMap (topicBytes info)).length < 2 ^ 31 := by
    simp only [metadataBytes, wireArray, List.length_append] at hlen
    omega
  have hcount : info.topics.length ≤ (info.topics.flatMap (topicBytes info)).length := by
    apply length_le_length_flatMap
    intro t _
    rw [← List.length_pos_iff, topicBytes, List.length_append, length_beInt]
    omega
  have hbroker : ∀ b ∈ [(info.brokerId, info.host, (info.port : ℤ))],
      Parses MetadataReply.broker (brokerBytes b) (id b) := by
    intro b hb
    rw [List.mem_singleton.mp hb]
    exact (parses_word h.brokerId).bind ((parses_string h.host).bind
      ((parses_word h.port).bind_pure _))
  have htopic : ∀ t ∈ info.topics,
      Parses MetadataReply.topic (topicBytes info t) (MetadataReply.topicOf info t) := by
    intro t ht
    have hle := length_le_of_mem (topicBytes info) ht
    exact parses_topic h (h.topics t ht) (by omega)
  refine (parses_word hcid).bind ((parses_array (by norm_num) hbroker).bind ?_)
  exact (parses_array (by omega) htopic).bind_pure _

end Metadata

/-! ## FindCoordinator -/

def coordinatorBytes (version : ℕ) (cid : ℤ) (info : CoordinatorInfo) : Bytes :=
  beInt 4 cid ++ (throttleBytes version 1 ++ (beInt 2 info.errorCode ++
    ((if 1 ≤ version then wireString [] else []) ++ (beInt 4 info.nodeId ++
      (wireString info.host ++ beInt 4 info.port)))))

/-- INTERNAL: the bytes of a FindCoordinator response. -/
theorem encodeFindCoordinatorResponse_eq {info : CoordinatorInfo} :
    encodeFindCoordinatorResponse cap cid version info =
      wireBytes (coordinatorBytes version cid info) := by
  refine encodeFrame_eq fun w => ?_
  unfold coordinatorBytes throttleBytes
  by_cases h : 1 ≤ version
  · have hcast : (version : ℤ) ≥ 1 := by omega
    simp [h, hcast]
  · have hcast : ¬ (version : ℤ) ≥ 1 := by omega
    simp [h, hcast]

theorem parses_coordinator {info : CoordinatorInfo} (hcid : Fits 4 cid)
    (h : CoordinatorSendable info) :
    Parses (CoordinatorReply.parser version) (coordinatorBytes version cid info)
      (CoordinatorReply.of version cid info) := by
  have hmessage := (parses_nullableString (s := []) (by norm_num)).since 1 version none
  refine (parses_word hcid).bind ((parses_throttle version 1).bind ?_)
  refine (parses_word h.errorCode).bind (hmessage.bind ((parses_word h.nodeId).bind ?_))
  exact (parses_string h.host).bind ((parses_word h.port).bind_pure _)

/-! ## SyncGroup, Heartbeat and LeaveGroup -/

def errorBytes (version : ℕ) (cid errorCode : ℤ) : Bytes :=
  beInt 4 cid ++ (throttleBytes version 1 ++ beInt 2 errorCode)

def syncBytes (version : ℕ) (cid : ℤ) (resp : SyncGroupResponse) : Bytes :=
  beInt 4 cid ++ (throttleBytes version 1 ++ (beInt 2 resp.errorCode ++
    wireBytes resp.memberAssignment))

/-- INTERNAL: the bytes of a Heartbeat or LeaveGroup response. -/
theorem encodeErrorResponse_eq {errorCode : ℤ} :
    encodeErrorResponse cap cid version errorCode = wireBytes (errorBytes version cid errorCode) := by
  refine encodeFrame_eq fun w => ?_
  unfold errorBytes throttleBytes
  by_cases h : 1 ≤ version
  · have hcast : (version : ℤ) ≥ 1 := by omega
    simp [h, hcast]
  · have hcast : ¬ (version : ℤ) ≥ 1 := by omega
    simp [h, hcast]

theorem parses_error (hcid : Fits 4 cid) {errorCode : ℤ} (herror : Fits 2 errorCode) :
    Parses (ErrorReply.parser version) (errorBytes version cid errorCode)
      (ErrorReply.of cid errorCode) :=
  (parses_word hcid).bind ((parses_throttle version 1).bind ((parses_word herror).bind_pure _))

/-- INTERNAL: the bytes of a SyncGroup response. -/
theorem encodeSyncGroupResponse_eq {resp : SyncGroupResponse} :
    encodeSyncGroupResponse cap cid version resp = wireBytes (syncBytes version cid resp) := by
  refine encodeFrame_eq fun w => ?_
  unfold syncBytes throttleBytes
  by_cases h : 1 ≤ version
  · have hcast : (version : ℤ) ≥ 1 := by omega
    simp [h, hcast]
  · have hcast : ¬ (version : ℤ) ≥ 1 := by omega
    simp [h, hcast]

theorem parses_sync {resp : SyncGroupResponse} (hcid : Fits 4 cid)
    (herror : Fits 2 resp.errorCode) (hlen : (syncBytes version cid resp).length < 2 ^ 31) :
    Parses (SyncReply.parser version) (syncBytes version cid resp) (SyncReply.of cid resp) := by
  simp only [syncBytes, wireBytes, List.length_append] at hlen
  refine (parses_word hcid).bind ((parses_throttle version 1).bind ?_)
  exact (parses_word herror).bind ((parses_bytes (by omega)).bind_pure _)

/-- PROPERTY: **the other responses say what they were made from.** In each of the six responses
that do not list partitions by topic, at every version the broker speaks, if the values fit their
fields and the response its buffer, of any size below `2^31`, a client that parses the response by
the schema of the version finds exactly what the handler returned, with no bytes left over: for
ApiVersions the list of the advertised APIs, for Metadata one broker that leads all partitions of
the topics.
SOURCE: protocol/kafka_codec.cpp:349-451, 477-513 -/
theorem other_responses_parse (hcap : cap < 2 ^ 31) (hcid : Fits 4 cid) (version : ℕ) :
    (version ≤ 3 → (encodeApiVersionsResponse cap cid version).length ≤ cap →
      message (ApiVersionsReply.parser version) (encodeApiVersionsResponse cap cid version) =
        some (ApiVersionsReply.of cid)) ∧
    (∀ info, MetadataSendable info → (encodeMetadataResponse cap cid info).length ≤ cap →
      message MetadataReply.parser (encodeMetadataResponse cap cid info) =
        some (MetadataReply.of cid info)) ∧
    (∀ info, version ≤ 2 → CoordinatorSendable info →
      (encodeFindCoordinatorResponse cap cid version info).length ≤ cap →
      message (CoordinatorReply.parser version) (encodeFindCoordinatorResponse cap cid version info) =
        some (CoordinatorReply.of version cid info)) ∧
    (∀ resp : SyncGroupResponse, version ≤ 2 → Fits 2 resp.errorCode →
      (encodeSyncGroupResponse cap cid version resp).length ≤ cap →
      message (SyncReply.parser version) (encodeSyncGroupResponse cap cid version resp) =
        some (SyncReply.of cid resp)) ∧
    ∀ errorCode, Fits 2 errorCode →
      (version ≤ 2 → (encodeHeartbeatResponse cap cid version errorCode).length ≤ cap →
        message (ErrorReply.parser version) (encodeHeartbeatResponse cap cid version errorCode) =
          some (ErrorReply.of cid errorCode)) ∧
      (version ≤ 1 → (encodeLeaveGroupResponse cap cid version errorCode).length ≤ cap →
        message (ErrorReply.parser version) (encodeLeaveGroupResponse cap cid version errorCode) =
          some (ErrorReply.of cid errorCode)) := by
  refine ⟨?_, ?_, ?_, ?_, ?_⟩
  · intro _ hlen
    rw [encodeApiVersionsResponse_eq] at hlen ⊢
    exact message_of_parses hcap hlen fun _ => parses_apiVersions hcid
  · intro info hinfo hlen
    rw [encodeMetadataResponse_eq hinfo.numPartitions] at hlen ⊢
    exact message_of_parses hcap hlen fun hbody => parses_metadata hcid hinfo hbody
  · intro info _ hinfo hlen
    rw [encodeFindCoordinatorResponse_eq] at hlen ⊢
    exact message_of_parses hcap hlen fun _ => parses_coordinator hcid hinfo
  · intro resp _ herror hlen
    rw [encodeSyncGroupResponse_eq] at hlen ⊢
    exact message_of_parses hcap hlen fun hbody => parses_sync hcid herror hbody
  · intro errorCode herror
    refine ⟨fun _ hlen => ?_, fun _ hlen => ?_⟩
    · rw [encodeHeartbeatResponse, encodeErrorResponse_eq] at hlen ⊢
      exact message_of_parses hcap hlen fun _ => parses_error hcid herror
    · rw [encodeLeaveGroupResponse, encodeErrorResponse_eq] at hlen ⊢
      exact message_of_parses hcap hlen fun _ => parses_error hcid herror

/-- Two topics in a Metadata response of the broker as it is configured. -/
theorem other_responses_parse_two_topics :
    message MetadataReply.parser (encodeMetadataResponse 65536 7
        { host := ascii "127.0.0.1", topics := [ascii "a", ascii "b"] }) =
      some
        { correlationId := 7
          brokers := [(0, ascii "127.0.0.1", 9092)]
          topics := [⟨0, ascii "a", [⟨0, 0, 0, [0], [0]⟩]⟩, ⟨0, ascii "b", [⟨0, 0, 0, [0], [0]⟩]⟩] } :=
  (other_responses_parse (show 65536 < 2 ^ 31 by norm_num) (show Fits 4 7 by decide) 0).2.1
    { host := ascii "127.0.0.1", topics := [ascii "a", ascii "b"] }
    ⟨by decide, by decide, by decide, by decide, by decide⟩ (by decide +kernel)

end StrikeMQ.Analysis.ServiceReplies
