import StrikeMQ.Interface.RequestSchemas
import StrikeMQ.Analysis.ProduceDecoding

/-!
# Requests are decoded as they were laid out

The decoders of the nine other requests against Kafka's schemas: each one reads a message of
any of the versions it serves to its last byte, and gets the fields that the client set. Where a
version lacks a field the decoder leaves the default, and a field that the broker has no use for
is read and dropped.

The decoders read the version at several places, so one comparison that is off by one, or one
field read in another order, would shift everything behind it.
-/

set_option autoImplicit false

namespace StrikeMQ.Analysis.RequestDecoding

open StrikeMQ.Lib StrikeMQ.Model StrikeMQ.Model.BinaryReader StrikeMQ.Model.KafkaDecoder
open StrikeMQ.Model.RequestRouter
open StrikeMQ.Interface StrikeMQ.Analysis.WireReading StrikeMQ.Analysis.ProduceDecoding

variable {m : Memory}

/-! ## Arrays -/

section Arrays

variable {α π : Type} {layout : π → Bytes}

/-- INTERNAL: an array behind its count. -/
theorem reads_array {β : Type} {x : ReaderM α} {value : π → α} {f : List α → ReaderM β} {w : β}
    {cs : Bytes} (h : ∀ p a, Reads m x a (layout p) (value p)) (ps : WireList π)
    (hf : ∀ a, Reads m (f (ps.val.map value)) a cs w) (a : ℕ) :
    Reads m (do
      let n ← readInt32
      let vs ← MemReader.times x n.toNat
      f vs) a (wireArray layout ps.val ++ cs) w := by
  rw [wireArray, List.append_assoc]
  refine (reads_readInt32 (fits_four_of_lt ps.2) a).bind fun _ => ?_
  rw [Int.toNat_natCast]
  exact (reads_times_map h ps.val _).bind fun _ => hf _

/-- INTERNAL: an array at the end of a message. -/
theorem reads_array_last {β : Type} {x : ReaderM α} {value : π → α} {f : List α → β}
    (h : ∀ p a, Reads m x a (layout p) (value p)) (ps : WireList π) (a : ℕ) :
    Reads m (do
      let n ← readInt32
      let vs ← MemReader.times x n.toNat
      return f vs) a (wireArray layout ps.val) (f (ps.val.map value)) := by
  rw [← List.append_nil (wireArray _ _)]
  refine reads_array h ps (fun a => ?_) a
  exact Reads.pure a (f (ps.val.map value))

/-- INTERNAL: the partitions of all the topics, each with the name of its own. -/
theorem reads_decodeByTopic {partition : Bytes → ReaderM α} {entry : Bytes → π → α}
    (h : ∀ topic p a, Reads m (partition topic) a (layout p) (entry topic p))
    (ts : WireList (Topic π)) (a : ℕ) :
    Reads m (decodeByTopic partition) a (topicArray layout ts) (byPartition entry ts) := by
  have htopic (t : Topic π) (a : ℕ) : Reads m (do
      let topic ← readStdString
      let np ← readInt32
      MemReader.times (partition topic) np.toNat) a (t.bytes layout)
      (t.partitions.val.map (entry t.name)) := by
    rw [Topic.bytes, wireArray]
    refine (reads_readStdString t.name a).bind fun _ => ?_
    refine (reads_readInt32 (fits_four_of_lt t.partitions.2) _).bind fun _ => ?_
    rw [Int.toNat_natCast]
    exact reads_times_map (h t.name) t.partitions.val _
  rw [byPartition, List.flatMap_def]
  exact reads_array_last htopic ts a

end Arrays

/-! ## One decoder after the other -/

variable {h : RequestHeader}

/-- INTERNAL: a partition of a Fetch request is read to its fields. -/
theorem reads_decodeFetchPartition {version : ℤ} (hversion : version < 5) (topic : Bytes)
    (p : FetchPartitionMessage) (a : ℕ) :
    Reads m (decodeFetchPartition version topic) a p.bytes (p.request topic) := by
  rw [FetchPartitionMessage.bytes, decodeFetchPartition, List.append_assoc]
  refine (reads_readInt32 p.index.2 a).bind fun _ => ?_
  rw [if_neg (by omega)]
  refine (reads_readInt64 p.fetchOffset _).bind fun _ => ?_
  rw [if_neg (by omega)]
  exact (reads_readInt32 p.maxBytes.2 _).bind_pure rfl

/-- INTERNAL: the body of a Fetch request is read to its fields. -/
theorem reads_decodeFetch (msg : FetchMessage) (hversion : h.apiVersion = msg.version.val)
    (a : ℕ) : Reads m (decodeFetch h) a msg.body (msg.request h.correlationId) := by
  have hlast : h.apiVersion < 5 := by omega
  have hthree : h.apiVersion ≥ 3 ↔ 3 ≤ msg.version.val := by omega
  have hfour : h.apiVersion ≥ 4 ↔ 4 ≤ msg.version.val := by omega
  simp only [FetchMessage.body, List.append_assoc]
  refine (reads_readInt32 msg.replicaId.2 a).bind fun _ => ?_
  refine (reads_readInt32 msg.maxWaitMs.2 _).bind fun _ => ?_
  refine (reads_readInt32 msg.minBytes.2 _).bind fun _ => ?_
  refine Reads.ite_default hthree (reads_readInt32 msg.maxBytes.2 _) fun _ => ?_
  refine Reads.ite_bind hfour (reads_readInt8 msg.isolationLevel _) fun a => ?_
  exact (reads_decodeByTopic (reads_decodeFetchPartition hlast) msg.topics a).bind_pure rfl

/-- INTERNAL: a partition of a ListOffsets request is read to its fields. -/
theorem reads_decodeListOffsetsPartition {version : ℤ} {v : ℕ} (hversion : version = v)
    (topic : Bytes) (p : ListOffsetsPartitionMessage) (a : ℕ) :
    Reads m (decodeListOffsetsPartition version topic) a (p.bytes v) (p.request topic) := by
  have hzero : version = 0 ↔ v = 0 := by omega
  rw [ListOffsetsPartitionMessage.bytes, List.append_assoc, ← List.append_nil (ite _ _ _)]
  refine (reads_readInt32 p.index.2 a).bind fun _ => ?_
  refine (reads_readInt64 p.timestamp _).bind fun _ => ?_
  exact Reads.ite_bind hzero (reads_readInt32 p.maxNumOffsets.2 _) fun a => Reads.pure a _

/-- INTERNAL: the body of a ListOffsets request is read to its fields. -/
theorem reads_decodeListOffsets (msg : ListOffsetsMessage)
    (hversion : h.apiVersion = msg.version.val) (a : ℕ) :
    Reads m (decodeListOffsets h) a msg.body (msg.request h.correlationId) := by
  have htwo : h.apiVersion ≥ 2 ↔ 2 ≤ msg.version.val := by omega
  simp only [ListOffsetsMessage.body, ListOffsetsMessage.request, List.append_assoc, ← hversion]
  refine (reads_readInt32 msg.replicaId.2 a).bind fun _ => ?_
  refine Reads.ite_bind htwo (reads_readInt8 msg.isolationLevel _) fun a => ?_
  exact (reads_decodeByTopic (reads_decodeListOffsetsPartition hversion) msg.topics a).bind_pure rfl

/-- INTERNAL: a partition of an OffsetCommit request is read to its fields. -/
theorem reads_decodeCommitPartition {version : ℤ} {v : ℕ} (hversion : version = v)
    (topic : Bytes) (p : OffsetCommitPartitionMessage) (a : ℕ) :
    Reads m (decodeCommitPartition version topic) a (p.bytes v) (p.request v topic) := by
  have hone : version = 1 ↔ v = 1 := by omega
  simp only [OffsetCommitPartitionMessage.bytes, List.append_assoc]
  refine (reads_readInt32 p.index.2 a).bind fun _ => ?_
  refine (reads_readInt64 p.offset _).bind fun _ => ?_
  refine Reads.ite_default hone (reads_readInt64 p.timestamp _) fun _ => ?_
  exact (reads_readStdString_nullable p.metadata _).bind_pure rfl

/-- INTERNAL: what follows the fields of the member. -/
theorem reads_commitTopics (msg : OffsetCommitMessage) (hversion : h.apiVersion = msg.version.val)
    {f : ℤ → List OffsetCommitPartitionRequest → OffsetCommitRequest} (a : ℕ) :
    Reads m (do
      let retentionTimeMs ← if h.apiVersion ≥ 2 then readInt64 else pure (-1)
      let partitions ← decodeByTopic (decodeCommitPartition h.apiVersion)
      return f retentionTimeMs partitions) a
      ((if 2 ≤ msg.version.val then beInt 8 msg.retentionTimeMs else []) ++
        topicArray (OffsetCommitPartitionMessage.bytes msg.version) msg.topics)
      (f (if 2 ≤ msg.version.val then msg.retentionTimeMs else -1)
        (byPartition (OffsetCommitPartitionMessage.request msg.version) msg.topics)) := by
  have htwo : h.apiVersion ≥ 2 ↔ 2 ≤ msg.version.val := by omega
  refine Reads.ite_default htwo (reads_readInt64 msg.retentionTimeMs _) fun a => ?_
  exact (reads_decodeByTopic (reads_decodeCommitPartition hversion) msg.topics a).bind_pure rfl

/-- INTERNAL: **the two fields of a member come together.** A commit of version 0 is that of a
consumer outside any group. -/
theorem reads_decodeOffsetCommit (msg : OffsetCommitMessage)
    (hversion : h.apiVersion = msg.version.val) (a : ℕ) :
    Reads m (decodeOffsetCommit h) a msg.body (msg.request h.correlationId) := by
  have hone : h.apiVersion ≥ 1 ↔ 1 ≤ msg.version.val := by omega
  simp only [OffsetCommitMessage.body, OffsetCommitMessage.request, List.append_assoc, ← hversion]
  refine (reads_readStdString msg.groupId a).bind fun _ => ?_
  refine Reads.ite hone (fun hmember => ?_) fun hmember => ?_
  · simp only [if_pos hmember, List.append_assoc]
    refine (reads_readInt32 msg.generationId.2 _).bind fun _ => ?_
    refine (reads_readStdString msg.memberId _).bind fun _ => ?_
    exact (Reads.pure _ _).bind_nil (reads_commitTopics msg hversion _)
  · simp only [if_neg hmember]
    exact (Reads.pure _ _).bind_nil (reads_commitTopics msg hversion _)

/-- INTERNAL: **a request without topics reads as one for no partition.** The count of a missing
array is -1, and the loop does not run. -/
theorem reads_decodeOffsetFetch (msg : OffsetFetchMessage)
    (hversion : h.apiVersion = msg.version.val) (a : ℕ) :
    Reads m (decodeOffsetFetch h) a msg.body (msg.request h.correlationId) := by
  have hpartition (topic : Bytes) (p : Word 4) (a : ℕ) :
      Reads m (decodeFetchOffsetPartition topic) a (partitionIndex p) (partitionRequest topic p) :=
    (reads_readInt32 p.2 a).bind_pure rfl
  rw [OffsetFetchMessage.body, OffsetFetchMessage.request, ← hversion]
  refine (reads_readStdString msg.groupId a).bind fun _ => ?_
  refine Reads.bind_pure ?_ rfl
  cases msg.topics with
  | none =>
    rw [Option.elim_none, ← List.append_nil (beInt 4 _)]
    have hcount : Fits 4 (-1) := by decide
    refine (reads_readInt32 hcount _).bind fun _ => ?_
    exact (Reads.pure _ []).bind_pure rfl
  | some ts => exact reads_decodeByTopic hpartition ts _

/-- INTERNAL: the body of a FindCoordinator request is read to its fields. -/
theorem reads_decodeFindCoordinator (msg : FindCoordinatorMessage)
    (hversion : h.apiVersion = msg.version.val) (a : ℕ) :
    Reads m (decodeFindCoordinator h) a msg.body (msg.request h.correlationId) := by
  have hone : h.apiVersion ≥ 1 ↔ 1 ≤ msg.version.val := by omega
  rw [FindCoordinatorMessage.body, FindCoordinatorMessage.request, ← hversion]
  refine (reads_readStdString msg.key a).bind fun _ => ?_
  rw [← List.append_nil (ite _ _ _)]
  exact Reads.ite_default hone (reads_readInt8 msg.keyType _) fun a => Reads.pure a _

/-- INTERNAL: a name and the bytes behind it. -/
theorem reads_namedBytes {α : Type} (make : Bytes → Bytes → α) (x : NamedBytes) (a : ℕ) :
    Reads m (do
      let name ← readStdString
      let bytes ← readBytes
      let data ← copy bytes
      return make name data) a x.bytes (make x.name x.data) := by
  rw [NamedBytes.bytes]
  refine (reads_readStdString x.name a).bind fun _ => ?_
  exact reads_readBytes_copy x.data _

/-- INTERNAL: so is that of a JoinGroup request, with the client id of the header. -/
theorem reads_decodeJoinGroup (msg : JoinGroupMessage) {clientId : Bytes}
    (hversion : h.apiVersion = msg.version.val)
    (hclient : ∀ a, Reads m (copy h.clientId) a [] clientId) (a : ℕ) :
    Reads m (decodeJoinGroup h) a msg.body (msg.request h.correlationId clientId) := by
  have hone : h.apiVersion ≥ 1 ↔ 1 ≤ msg.version.val := by omega
  have hprotocol (x : NamedBytes) (a : ℕ) :
      Reads m decodeProtocol a x.bytes ⟨x.name, x.data⟩ := reads_namedBytes _ x a
  simp only [JoinGroupMessage.body, JoinGroupMessage.request, List.append_assoc, ← hversion]
  refine (hclient a).bind_nil ?_
  refine (reads_readStdString msg.groupId a).bind fun _ => ?_
  refine (reads_readInt32 msg.sessionTimeoutMs.2 _).bind fun _ => ?_
  refine Reads.ite_default hone (reads_readInt32 msg.rebalanceTimeoutMs.2 _) fun _ => ?_
  refine (reads_readStdString msg.memberId _).bind fun _ => ?_
  refine (reads_readStdString msg.protocolType _).bind fun _ => ?_
  exact reads_array_last hprotocol msg.protocols _

/-- INTERNAL: so is that of a SyncGroup request. -/
theorem reads_decodeSyncGroup (msg : SyncGroupMessage)
    (hversion : h.apiVersion = msg.version.val) (a : ℕ) :
    Reads m (decodeSyncGroup h) a msg.body (msg.request h.correlationId) := by
  have hassignment (x : NamedBytes) (a : ℕ) :
      Reads m decodeAssignment a x.bytes ⟨x.name, x.data⟩ := reads_namedBytes _ x a
  simp only [SyncGroupMessage.body, SyncGroupMessage.request, List.append_assoc, ← hversion]
  refine (reads_readStdString msg.groupId a).bind fun _ => ?_
  refine (reads_readInt32 msg.generationId.2 _).bind fun _ => ?_
  refine (reads_readStdString msg.memberId _).bind fun _ => ?_
  exact reads_array_last hassignment msg.assignments _

/-- INTERNAL: so is that of a Heartbeat request. -/
theorem reads_decodeHeartbeat (msg : HeartbeatMessage)
    (hversion : h.apiVersion = msg.version.val) (a : ℕ) :
    Reads m (decodeHeartbeat h) a msg.body (msg.request h.correlationId) := by
  simp only [HeartbeatMessage.body, HeartbeatMessage.request, List.append_assoc, ← hversion]
  refine (reads_readStdString msg.groupId a).bind fun _ => ?_
  refine (reads_readInt32 msg.generationId.2 _).bind fun _ => ?_
  exact (reads_readStdString msg.memberId _).bind_pure rfl

/-- INTERNAL: so is that of a LeaveGroup request. -/
theorem reads_decodeLeaveGroup (msg : LeaveGroupMessage)
    (hversion : h.apiVersion = msg.version.val) (a : ℕ) :
    Reads m (decodeLeaveGroup h) a msg.body (msg.request h.correlationId) := by
  simp only [LeaveGroupMessage.body, LeaveGroupMessage.request, ← hversion]
  refine (reads_readStdString msg.groupId a).bind fun _ => ?_
  exact (reads_readStdString msg.memberId _).bind_pure rfl

/-! ## The whole frame -/

theorem fits_key (msg : RequestMessage) : Fits 2 msg.key := by
  cases msg <;> exact of_decide_eq_true rfl

theorem fits_version (msg : RequestMessage) : Fits 2 (msg.version : ℤ) := by
  apply fits_two_of_lt
  cases msg <;> simp only [RequestMessage.version] <;> omega

theorem requestFrame_eq (msg : RequestMessage) (correlationId : Word 4)
    (clientId : Option ShortString) :
    msg.frame correlationId clientId =
      headerBytes msg.key msg.version correlationId clientId ++ msg.body := by
  simp only [RequestMessage.frame, headerBytes, List.append_assoc]

/-- INTERNAL: **each key has its own decoder.** -/
theorem reads_decodeBody (metadataHandler : Bool) (msg : RequestMessage) {clientId : Bytes}
    (hkey : h.apiKey = ApiKey.ofInt msg.key) (hversion : h.apiVersion = msg.version)
    (hclient : ∀ a, Reads m (copy h.clientId) a [] clientId) (a : ℕ) :
    Reads m (decodeBody metadataHandler h) a msg.body (msg.request h.correlationId clientId) := by
  unfold decodeBody
  cases msg with
  | fetch msg =>
    rw [hkey]
    exact (reads_decodeFetch msg hversion a).bind_pure rfl
  | listOffsets msg =>
    rw [hkey]
    exact (reads_decodeListOffsets msg hversion a).bind_pure rfl
  | offsetCommit msg =>
    rw [hkey]
    exact (reads_decodeOffsetCommit msg hversion a).bind_pure rfl
  | offsetFetch msg =>
    rw [hkey]
    exact (reads_decodeOffsetFetch msg hversion a).bind_pure rfl
  | findCoordinator msg =>
    rw [hkey]
    exact (reads_decodeFindCoordinator msg hversion a).bind_pure rfl
  | joinGroup msg =>
    rw [hkey]
    exact (reads_decodeJoinGroup msg hversion hclient a).bind_pure rfl
  | syncGroup msg =>
    rw [hkey]
    exact (reads_decodeSyncGroup msg hversion a).bind_pure rfl
  | heartbeat msg =>
    rw [hkey]
    exact (reads_decodeHeartbeat msg hversion a).bind_pure rfl
  | leaveGroup msg =>
    rw [hkey]
    exact (reads_decodeLeaveGroup msg hversion a).bind_pure rfl

/-- PROPERTY: **decoding a request inverts its layout.** For every message of the nine requests
and every memory that holds its frame: the header is decoded to the message's key, version,
correlation id and client id, and the decoder that belongs to the key then returns the fields
of the message and leaves the reader at the end of the frame. -/
theorem decoding_inverts_layout (metadataHandler : Bool) (msg : RequestMessage)
    (correlationId : Word 4) (clientId : Option ShortString) (a : ℕ)
    (hbytes : m.HoldsAt a (msg.frame correlationId clientId)) :
    let length := (msg.frame correlationId clientId).length
    let client := (clientId.map Subtype.val).getD []
    ∃ (view : View) (r : BinaryReader),
      let header : RequestHeader := ⟨ApiKey.ofInt msg.key, msg.version, correlationId, view⟩
      decodeHeader.run m { data := a, length := length } = some (header, r) ∧
        (copy header.clientId).run m r = some (client, r) ∧
        (decodeBody metadataHandler header).run m r =
          some (msg.request correlationId client, { data := a, length := length, pos := length }) := by
  rw [requestFrame_eq] at hbytes
  obtain ⟨view, hheader, hcopy⟩ := exists_reads_decodeHeader (m := m) (fits_key msg)
    (fits_version msg) correlationId.2 clientId a
  have hclient := hcopy hbytes.left
  have hnothing : m.HoldsAt _ ([] ++ msg.body) := hbytes.right
  have hbody := reads_decodeBody metadataHandler msg
    (h := ⟨ApiKey.ofInt msg.key, msg.version, correlationId, view⟩) rfl rfl hclient _ hbytes.right
  have hplace (n : ℕ) : a + (0 + n) = a + n := by rw [Nat.zero_add]
  refine ⟨view, _, hheader hbytes.left _ rfl, hclient _ hnothing.left _ (hplace _), ?_⟩
  rw [hbody _ (hplace _), requestFrame_eq, List.length_append, Nat.zero_add]

/-- A commit of version 3 for two topics, as a client without a name lays it out. -/
theorem decoding_inverts_layout_offsetCommit :
    let group : ShortString := ⟨ascii "g", by decide⟩
    let partition (i : Word 4) : OffsetCommitPartitionMessage :=
      ⟨i, ⟨7, by decide⟩, ⟨-1, by decide⟩, none⟩
    let topics : WireList (Topic OffsetCommitPartitionMessage) :=
      ⟨[⟨⟨ascii "a", by decide⟩, ⟨[partition ⟨0, by decide⟩, partition ⟨1, by decide⟩], by decide⟩⟩,
        ⟨⟨ascii "b", by decide⟩, ⟨[partition ⟨0, by decide⟩], by decide⟩⟩], by decide⟩
    let msg : RequestMessage :=
      .offsetCommit ⟨3, group, ⟨1, by decide⟩, group, ⟨-1, by decide⟩, topics⟩
    let frame := msg.frame ⟨5, by decide⟩ none
    ∃ (view : View) (r : BinaryReader),
      decodeHeader.run (Memory.ofBytes frame) { length := frame.length } =
          some (⟨.offsetCommit, 3, 5, view⟩, r) ∧
        (decodeBody true ⟨.offsetCommit, 3, 5, view⟩).run (Memory.ofBytes frame) r =
          some (.offsetCommit
            { correlationId := 5
              apiVersion := 3
              groupId := ascii "g"
              generationId := 1
              memberId := ascii "g"
              retentionTimeMs := -1
              partitions := [⟨⟨ascii "a", 0⟩, 7, -1, []⟩, ⟨⟨ascii "a", 1⟩, 7, -1, []⟩,
                ⟨⟨ascii "b", 0⟩, 7, -1, []⟩] },
            { length := frame.length, pos := frame.length }) := by
  intro group partition topics msg frame
  obtain ⟨view, r, hheader, -, hbody⟩ := decoding_inverts_layout true msg ⟨5, by decide⟩ none 0
    (Memory.holdsAt_zero (by decide) (Memory.holds_ofBytes frame))
  exact ⟨view, r, hheader, hbody⟩

end StrikeMQ.Analysis.RequestDecoding
