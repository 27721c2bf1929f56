import StrikeMQ.Analysis.ProduceDecoding
import StrikeMQ.Analysis.ResponseSize
import StrikeMQ.Analysis.SegmentLayout
import StrikeMQ.Analysis.WireWriting

/-!
# What a Produce response tells the client

The handler answers every batch with the base offset that `append` returned for it, and the
encoder lists all the answers under the name of the first batch's topic, in the layout of
version 5, whatever version the request had. A client that parses the response with the layout
of its own version finds its partitions and their offsets exactly if it asked with version 5
and for partitions of one topic; of the earlier versions each entry is shorter than the 30 bytes
that the encoder writes, so bytes are left over.
-/

set_option autoImplicit false

namespace StrikeMQ.Analysis.ProduceAnswers

open StrikeMQ.Lib StrikeMQ.Lib.Parser StrikeMQ.Model StrikeMQ.Model.KafkaEncoder
open StrikeMQ.Model.RequestRouter StrikeMQ.Interface StrikeMQ.Interface.ProduceReply
open StrikeMQ.Analysis.BatchSerialization StrikeMQ.Analysis.SegmentLayout
open StrikeMQ.Analysis.WireReading StrikeMQ.Analysis.ProduceDecoding
open StrikeMQ.Analysis.WireWriting StrikeMQ.Analysis.ResponseSize

/-! ## What is appended -/

/-- The broker after the log of a partition, found or created, has become `log`. -/
def afterAppend (b : Broker) (tp : TopicPartition) (log : PartitionLog) : Broker :=
  { (b.getOrCreateLog tp).2 with
    shardedLogs := (b.getOrCreateLog tp).2.shardedLogs.put tp log }

/-- The batches appended in turn, each to the log of its partition: the base offset that
`append` returned for each, and the broker afterwards. -/
def appendEach : List RecordBatch → Broker → Option (List (TopicPartition × ℤ) × Broker)
  | [], b => some ([], b)
  | batch :: rest, b => do
    let tp := batch.topicPartition
    let (log, base) ← (b.getOrCreateLog tp).1.append batch
    let (assigned, b') ← appendEach rest (afterAppend b tp log)
    return ((tp, base) :: assigned, b')

/-- No log gets past the last 64-bit offset with `n` more records. -/
def OffsetsFit (b : Broker) (n : ℕ) : Prop :=
  ∀ tp log, b.shardedLogs.find tp = some log →
    0 ≤ log.nextOffset ∧ log.nextOffset + n < 2 ^ 63

theorem find_getOrCreateLog_ne (b : Broker) {tp tp' : TopicPartition} (h : tp' ≠ tp) :
    (b.getOrCreateLog tp).2.shardedLogs.find tp' = b.shardedLogs.find tp' := by
  unfold Broker.getOrCreateLog ShardedLogMap.getOrCreate
  cases b.shardedLogs.find tp with
  | none => exact ShardedLogMap.find_put_ne _ h _
  | some log => rfl

theorem OffsetsFit.getOrCreateLog {b : Broker} {n : ℕ} (h : OffsetsFit b n) (hn : n < 2 ^ 63)
    (tp : TopicPartition) :
    0 ≤ (b.getOrCreateLog tp).1.nextOffset ∧
      (b.getOrCreateLog tp).1.nextOffset + n < 2 ^ 63 := by
  cases hfind : b.shardedLogs.find tp with
  | none =>
    rw [getOrCreateLog_of_find_none hfind]
    exact ⟨le_refl 0, by show (0 : ℤ) + n < 2 ^ 63; omega⟩
  | some log =>
    have hlog : (b.getOrCreateLog tp).1 = log := by
      simp only [Broker.getOrCreateLog, ShardedLogMap.getOrCreate, hfind]
    rw [hlog]
    exact h tp log hfind

theorem OffsetsFit.append {b : Broker} {k n : ℕ} (h : OffsetsFit b (k + n))
    (hlt : k + n < 2 ^ 63) {tp : TopicPartition} {log : PartitionLog}
    (hnext : log.nextOffset = (b.getOrCreateLog tp).1.nextOffset + k) :
    OffsetsFit (afterAppend b tp log) n := by
  intro tp' log' hfind
  by_cases htp : tp' = tp
  · have hlog : (afterAppend b tp log).shardedLogs.find tp = some log :=
      ShardedLogMap.find_put_self _ _ _
    rw [htp, hlog, Option.some.injEq] at hfind
    obtain ⟨hnonneg, hbound⟩ := h.getOrCreateLog hlt tp
    rw [← hfind, hnext]
    omega
  · have hlog : (afterAppend b tp log).shardedLogs.find tp' = b.shardedLogs.find tp' :=
      (ShardedLogMap.find_put_ne _ htp _).trans (find_getOrCreateLog_ne b htp)
    rw [hlog] at hfind
    obtain ⟨hnonneg, hbound⟩ := h tp' log' hfind
    omega

/-- The handler's answer for a batch.
SOURCE: main.cpp:79-82 -/
def answer (a : TopicPartition × ℤ) : ProducePartitionResponse :=
  { partition := a.1.partition, baseOffset := a.2 }

theorem produceBatches_cons {b : Broker} {batch : RecordBatch} {rest : List RecordBatch}
    {log : PartitionLog} {base : ℤ}
    (happ : (b.getOrCreateLog batch.topicPartition).1.append batch = some (log, base)) :
    Broker.produceBatches (batch :: rest) (some b) =
      (answer (batch.topicPartition, base) ::
        (Broker.produceBatches rest (some (afterAppend b batch.topicPartition log))).1,
        (Broker.produceBatches rest (some (afterAppend b batch.topicPartition log))).2) := by
  have hbatch : Broker.produceBatch batch (some b) =
      (answer (batch.topicPartition, base), some (afterAppend b batch.topicPartition log)) := by
    simp only [Broker.produceBatch, happ]
    rfl
  rw [Broker.produceBatches, hbatch]

theorem appendEach_cons {b b' : Broker} {batch : RecordBatch} {rest : List RecordBatch}
    {log : PartitionLog} {base : ℤ} {assigned : List (TopicPartition × ℤ)}
    (happ : (b.getOrCreateLog batch.topicPartition).1.append batch = some (log, base))
    (hrest : appendEach rest (afterAppend b batch.topicPartition log) = some (assigned, b')) :
    appendEach (batch :: rest) b = some ((batch.topicPartition, base) :: assigned, b') := by
  simp only [appendEach, happ, hrest, Option.bind_eq_bind, Option.bind_some, Option.pure_def]

/-- INTERNAL: **every batch is appended, and the handler answers with what `append` returned.** -/
theorem exists_appendEach {batches : List RecordBatch} {b : Broker}
    (hsmall : ∀ batch ∈ batches, ∀ r ∈ batch.records, r.totalSize < 2 ^ 31)
    (hfit : OffsetsFit b (batches.map fun batch => batch.records.length).sum)
    (hlt : (batches.map fun batch => batch.records.length).sum < 2 ^ 63) :
    ∃ assigned b', appendEach batches b = some (assigned, b') ∧
      Broker.produceBatches batches (some b) = (assigned.map answer, some b') ∧
      assigned.map Prod.fst = batches.map RecordBatch.topicPartition ∧
      ∀ a ∈ assigned, Fits 8 a.2 := by
  induction batches generalizing b with
  | nil => exact ⟨[], b, rfl, rfl, rfl, fun a ha => absurd ha List.not_mem_nil⟩
  | cons batch rest ih =>
    rw [List.map_cons, List.sum_cons] at hfit hlt
    obtain ⟨out, -, happ⟩ := exists_append_of_totalSize
      (b.getOrCreateLog batch.topicPartition).1 (hsmall batch List.mem_cons_self)
    obtain ⟨assigned, b', heach, hproduce, htps, hfits⟩ :=
      ih (fun c hc => hsmall c (List.mem_cons_of_mem _ hc))
        (hfit.append hlt (nextOffset_commit _ _ batch out)) (by omega)
    refine ⟨_, b', appendEach_cons happ heach, ?_, ?_, ?_⟩
    · rw [produceBatches_cons happ, hproduce]
      rfl
    · rw [List.map_cons, List.map_cons, htps]
    · intro a ha
      rcases List.mem_cons.mp ha with rfl | ha
      · obtain ⟨hnonneg, hbound⟩ := hfit.getOrCreateLog hlt batch.topicPartition
        exact fits_eight_of_bounds (by omega) (by omega)
      · exact hfits a ha

/-! ## The bytes of the response -/

def entryBytes (p : ProducePartitionResponse) : Bytes :=
  beInt 4 p.partition ++ (beInt 2 p.errorCode ++ (beInt 8 p.baseOffset ++
    (beInt 8 p.logAppendTime ++ beInt 8 p.logStartOffset)))

/-- One topic with all the answers, and the throttle time. -/
def replyBytes (correlationId : ℤ) (topic : Bytes) (parts : List ProducePartitionResponse) :
    Bytes :=
  beInt 4 correlationId ++ (beInt 4 1 ++ (wireString topic ++
    (beInt 4 parts.length ++ (parts.flatMap entryBytes ++ beInt 4 0))))

/-- INTERNAL: the bytes of a Produce response. -/
theorem encodeProduceResponse_eq (cap : ℕ) (cid : ℤ) (parts : List ProducePartitionResponse)
    (topic : Bytes) :
    encodeProduceResponse cap cid parts topic = wireBytes (replyBytes cid topic parts) := by
  apply encodeFrame_eq
  intro w
  have hentry : ∀ (w : BinaryWriter) (p : ProducePartitionResponse),
      (((((w.writeInt32 p.partition).writeInt16 p.errorCode).writeInt64 p.baseOffset).writeInt64
        p.logAppendTime).writeInt64 p.logStartOffset).data = w.data ++ entryBytes p := by
    intro w p
    simp only [data_writeInt64, data_writeInt16, data_writeInt32, entryBytes, List.append_assoc]
  simp only [data_writeInt32, data_writeArray _ hentry, data_writeString, replyBytes, wireArray,
    List.append_assoc]

theorem length_flatMap_entryBytes (parts : List ProducePartitionResponse) :
    (parts.flatMap entryBytes).length = parts.length * 30 := by
  induction parts with
  | nil => rfl
  | cons p parts ih =>
    rw [List.flatMap_cons, List.length_append, ih, List.length_cons, Nat.succ_mul, entryBytes]
    simp only [List.length_append, length_beInt]
    omega

theorem length_replyBytes (cid : ℤ) (topic : Bytes) (parts : List ProducePartitionResponse) :
    (replyBytes cid topic parts).length = 18 + topic.length + parts.length * 30 := by
  simp only [replyBytes, wireString, List.length_append, length_beInt, length_flatMap_entryBytes]
  omega

/-! ## Parsing it -/

/-- The entry that version 5 parses an answer to. -/
def toEntry (p : ProducePartitionResponse) : ProduceEntry :=
  ⟨p.partition, p.errorCode, p.baseOffset, p.logAppendTime, p.logStartOffset⟩

/-- The bytes of an entry, by version. -/
def entryWidth (version : ℕ) : ℕ :=
  14 + (if 2 ≤ version then 8 else 0) + (if 5 ≤ version then 8 else 0)

theorem consumes_entry (version : ℕ) : Consumes (entry version) (entryWidth version) := by
  have h := (consumes_word 4).bind fun partition => (consumes_word 2).bind fun errorCode =>
    (consumes_word 8).bind fun baseOffset =>
      ((consumes_word 8).since 2 version (-1)).bind fun logAppendTime =>
        ((consumes_word 8).since 5 version (-1)).bind fun logStartOffset =>
          consumes_pure (⟨partition, errorCode, baseOffset, logAppendTime, logStartOffset⟩ :
            ProduceEntry)
  have hwidth : 4 + (2 + (8 + ((if 2 ≤ version then 8 else 0) +
      ((if 5 ≤ version then 8 else 0) + 0)))) = entryWidth version := by
    unfold entryWidth
    omega
  rwa [hwidth] at h

theorem parses_entry {p : ProducePartitionResponse} (hpartition : Fits 4 p.partition)
    (herror : Fits 2 p.errorCode) (hbase : Fits 8 p.baseOffset) (htime : Fits 8 p.logAppendTime)
    (hstart : Fits 8 p.logStartOffset) : Parses (entry 5) (entryBytes p) (toEntry p) := by
  refine (parses_word hpartition).bind ?_
  refine (parses_word herror).bind ?_
  refine (parses_word hbase).bind ?_
  refine (parses_word htime).bind ?_
  have hlast := (parses_word hstart).bind (f := fun v =>
    (pure ⟨p.partition, p.errorCode, p.baseOffset, p.logAppendTime, v⟩ : Parser ProduceEntry))
    (Parses.pure _)
  rwa [List.append_nil] at hlast

section Reply

variable {version : ℕ} {cid : ℤ} {topic : Bytes} {parts : List ProducePartitionResponse}
  (hid : Fits 4 cid) (htopic : topic.length < 2 ^ 15) (hcount : parts.length < 2 ^ 31)

include hid htopic hcount

/-- INTERNAL: in every version a parser reaches the entries with the right topic and count. -/
theorem reply_replyBytes :
    reply version (replyBytes cid topic parts) =
      (times (entry version) parts.length (parts.flatMap entryBytes ++ beInt 4 0)).bind fun es =>
        (since 1 version (word 4) 0 es.2).map fun t => (⟨cid, [(topic, es.1)], t.1⟩, t.2) := by
  have hone : Fits 4 1 := by decide
  rw [replyBytes, reply, (parses_word hid).run_bind, bind_apply, array,
    (parses_word hone).run_bind, if_neg (by decide)]
  show ((ProduceReply.topic version >>= _) _).bind _ = _
  rw [bind_apply, ProduceReply.topic, (parses_string htopic).run_bind, bind_apply, array,
    (parses_word (fits_four_of_lt hcount)).run_bind, if_neg (by omega), Int.toNat_natCast]
  cases times (entry version) parts.length (parts.flatMap entryBytes ++ beInt 4 0) with
  | none => rfl
  | some es =>
    show ((since 1 version (word 4) 0 >>= _) es.2) = _
    rw [bind_apply, Option.bind_some]
    cases since 1 version (word 4) 0 es.2 with
    | none => rfl
    | some t => rfl

/-- INTERNAL: the entries of the versions before 5 are shorter than what the encoder writes, and
without entries the throttle time is left over in version 0. -/
theorem version_of_reply {r : ProduceReply} (hversion : version ≤ 5)
    (h : reply version (replyBytes cid topic parts) = some (r, [])) :
    version = 5 ∨ parts = [] ∧ 1 ≤ version := by
  rw [reply_replyBytes hid htopic hcount] at h
  obtain ⟨⟨es, rest⟩, hes, hrest⟩ := Option.bind_eq_some_iff.mp h
  obtain ⟨⟨t, rest'⟩, ht, heq⟩ := Option.map_eq_some_iff.mp hrest
  obtain ⟨-, rfl⟩ := Prod.mk.inj heq
  have hentries := (consumes_entry version).times parts.length _ _ _ hes
  have hthrottle := (consumes_word 4).since 1 version 0 rest _ _ ht
  rw [List.length_append, length_flatMap_entryBytes, length_beInt] at hentries
  rw [List.length_nil] at hthrottle
  rw [← List.length_eq_zero_iff]
  unfold entryWidth at hentries
  split_ifs at hentries hthrottle <;> omega

theorem reply_of_version (hversion : version = 5 ∨ parts = [] ∧ 1 ≤ version)
    (hentries : ∀ p ∈ parts, Parses (entry 5) (entryBytes p) (toEntry p)) :
    reply version (replyBytes cid topic parts) =
      some (⟨cid, [(topic, parts.map toEntry)], 0⟩, []) := by
  have hparses : Parses (times (entry version) parts.length) (parts.flatMap entryBytes)
      (parts.map toEntry) := by
    rcases hversion with rfl | ⟨rfl, -⟩
    · exact parses_times hentries
    · exact Parses.pure []
  have hthrottle : since 1 version (word 4) 0 (beInt 4 0) = some (0, []) := by
    rw [since, if_pos (by omega)]
    have hzero : Fits 4 0 := by decide
    exact parses_word hzero []
  rw [reply_replyBytes hid htopic hcount, hparses, Option.bind_some, hthrottle]
  rfl

end Reply

theorem parse_wireBytes {version : ℕ} {body : Bytes} {r : ProduceReply}
    (hlen : body.length < 2 ^ 31) :
    parse version (wireBytes body) = some r ↔ reply version body = some (r, []) := by
  have hsize := parses_word (fits_four_of_lt hlen) body
  unfold parse wireBytes
  rw [hsize]
  show (if (body.length : ℤ) = body.length then _ else none) = some r ↔ _
  rw [if_pos rfl]
  constructor
  · intro h
    split at h
    · next r' hreply => rw [hreply, Option.some.inj h]
    · cases h
  · intro h
    rw [h]

/-- INTERNAL: **what a client reads off the response.** -/
theorem tells_iff {version : ℕ} {cid : ℤ} {topic : Bytes} {assigned : List (TopicPartition × ℤ)}
    (hversion : version ≤ 5) (hid : Fits 4 cid) (htopic : topic.length < 2 ^ 15)
    (hfits : ∀ a ∈ assigned, Fits 4 a.1.partition ∧ Fits 8 a.2)
    (hlen : (replyBytes cid topic (assigned.map answer)).length < 2 ^ 31) :
    Tells version cid (wireBytes (replyBytes cid topic (assigned.map answer))) assigned ↔
      (version = 5 ∨ assigned = [] ∧ 1 ≤ version) ∧ ∀ a ∈ assigned, a.1.topic = topic := by
  have hcount : (assigned.map answer).length < 2 ^ 31 := by
    rw [length_replyBytes] at hlen
    omega
  have hentries : ∀ p ∈ assigned.map answer, Parses (entry 5) (entryBytes p) (toEntry p) := by
    intro p hp
    obtain ⟨a, ha, rfl⟩ := List.mem_map.mp hp
    obtain ⟨hpartition, hbase⟩ := hfits a ha
    have herror : Fits 2 0 := by decide
    have htime : Fits 8 (-1) := by decide
    have hstart : Fits 8 0 := by decide
    exact parses_entry hpartition herror hbase htime hstart
  have hoffsets : (⟨cid, [(topic, (assigned.map answer).map toEntry)], 0⟩ : ProduceReply).offsets =
      assigned.map fun a => (⟨topic, a.1.partition⟩, a.2) := by
    simp only [ProduceReply.offsets, List.flatMap_cons, List.flatMap_nil, List.append_nil,
      List.map_map]
    rfl
  constructor
  · rintro ⟨r, hparse, -, hperm⟩
    have hreply := (parse_wireBytes hlen).mp hparse
    have hsuits := version_of_reply hid htopic hcount hversion hreply
    rw [List.map_eq_nil_iff] at hsuits
    refine ⟨hsuits, ?_⟩
    rw [reply_of_version hid htopic hcount (by rwa [List.map_eq_nil_iff]) hentries] at hreply
    obtain ⟨rfl, -⟩ := Prod.mk.inj (Option.some.inj hreply)
    rw [hoffsets] at hperm
    intro a ha
    obtain ⟨a', -, rfl⟩ := List.mem_map.mp (hperm.mem_iff.mpr ha)
    rfl
  · rintro ⟨hsuits, htopics⟩
    refine ⟨_, (parse_wireBytes hlen).mpr (reply_of_version hid htopic hcount
      (by rwa [List.map_eq_nil_iff]) hentries), rfl, ?_⟩
    have hsame : (assigned.map fun a => ((⟨topic, a.1.partition⟩, a.2) : TopicPartition × ℤ)) =
        assigned := by
      conv_rhs => rw [← List.map_id assigned]
      apply List.map_congr_left
      intro a ha
      rw [← htopics a ha, id]
    rw [hoffsets, hsame]

/-! ## Routing a Produce request -/

/-- The topic of the first of some partitions, the empty name without one. -/
def firstTopic (tps : List TopicPartition) : Bytes :=
  (tps.head?.map TopicPartition.topic).getD []

theorem produceTopic_eq (q : ProduceRequest) :
    produceTopic q = firstTopic (q.batches.map RecordBatch.topicPartition) := by
  unfold produceTopic
  cases q.batches with
  | nil => rfl
  | cons b bs => rfl

/-- INTERNAL: **a Produce frame is routed to the handler and answered.** -/
theorem exists_routed (env : GroupEnv) {b : Broker} {msg : ProduceMessage} {m : Memory} (cap : ℕ)
    (hsize : msg.frame.length < 2 ^ 31) (hshort : msg.Short) (hm : m.Holds msg.frame)
    (hroom : OffsetsFit b msg.recordCount) :
    ∃ out q assigned b', routeRequest (Broker.handlers env) m msg.frame.length cap (some b) =
        some out ∧
      out.call = some (.produce q) ∧ appendEach q.batches b = some (assigned, b') ∧
      out.state = some b' ∧ assigned.map Prod.fst = msg.topicPartitions ∧
      (∀ a ∈ assigned, Fits 4 a.1.partition ∧ Fits 8 a.2) ∧
      out.response = wireBytes (replyBytes msg.correlationId (firstTopic msg.topicPartitions)
        (assigned.map answer)) := by
  obtain ⟨q, rest, hdecode, hreceived⟩ :=
    (exists_decodeRequest_produce hsize (hm.at_zero hsize) (Broker.handlers env).metadata.isSome
      _).1 hshort
  have hcount := recordCount_eq hreceived
  have hle := recordCount_le msg
  obtain ⟨assigned, b', heach, hproduce, htps, hfits⟩ :=
    exists_appendEach (small_of_received hreceived) (hcount ▸ hroom) (by omega)
  rw [topicPartitions_eq hreceived] at htps
  refine ⟨dispatch (Broker.handlers env) cap ⟨msg.correlationId, msg.version.val, .produce q⟩
    (some b), q, assigned, b', ?_, rfl, heach, ?_, htps, ?_, ?_⟩
  · rw [routeRequest, hdecode]
    rfl
  · show (Broker.produceBatches q.batches (some b)).2 = some b'
    rw [hproduce]
  · intro a ha
    have hmem : a.1 ∈ msg.topicPartitions := htps ▸ List.mem_map_of_mem ha
    exact ⟨(topicPartition_fits hmem).2, hfits a ha⟩
  · show encodeProduceResponse cap msg.correlationId
      (Broker.produceBatches q.batches (some b)).1 (produceTopic q) = _
    rw [encodeProduceResponse_eq, hproduce, produceTopic_eq, topicPartitions_eq hreceived]

theorem length_firstTopic_lt (msg : ProduceMessage) :
    (firstTopic msg.topicPartitions).length < 2 ^ 15 := by
  unfold firstTopic
  cases htps : msg.topicPartitions with
  | nil => decide
  | cons tp tps =>
    have hmem : tp ∈ msg.topicPartitions := by rw [htps]; exact List.mem_cons_self
    exact (topicPartition_fits hmem).1

/-- The requests that the encoder's one layout suits: of version 5 for partitions of a single
topic, or of version 1 or later without a partition. -/
def SuitsEncoder (msg : ProduceMessage) : Prop :=
  (msg.version.val = 5 ∧ ∃ t, ∀ tp ∈ msg.topicPartitions, tp.topic = t) ∨
    (msg.topicPartitions = [] ∧ 1 ≤ msg.version.val)

/-- INTERNAL: all partitions have the first one's topic when they have one topic. -/
theorem suitsEncoder_iff (msg : ProduceMessage) :
    SuitsEncoder msg ↔
      (msg.version.val = 5 ∨ msg.topicPartitions = [] ∧ 1 ≤ msg.version.val) ∧
        ∀ tp ∈ msg.topicPartitions, tp.topic = firstTopic msg.topicPartitions := by
  unfold SuitsEncoder firstTopic
  cases msg.topicPartitions with
  | nil => simp
  | cons tp tps =>
    constructor
    · rintro (⟨hfive, t, ht⟩ | ⟨hnil, -⟩)
      · refine ⟨Or.inl hfive, ?_⟩
        intro tp' htp'
        exact (ht tp' htp').trans (ht tp List.mem_cons_self).symm
      · cases hnil
    · rintro ⟨hfive | ⟨hnil, -⟩, hall⟩
      · exact Or.inl ⟨hfive, _, hall⟩
      · cases hnil

/-- INTERNAL: the encoder's bytes for a routed request, when they fit the buffer, tell the
client what was appended exactly if the request suits the encoder. -/
theorem tells_iff_suitsEncoder {msg : ProduceMessage} {assigned : List (TopicPartition × ℤ)}
    {response : Bytes} (htps : assigned.map Prod.fst = msg.topicPartitions)
    (hfits : ∀ a ∈ assigned, Fits 4 a.1.partition ∧ Fits 8 a.2)
    (hresponse : response = wireBytes (replyBytes msg.correlationId
      (firstTopic msg.topicPartitions) (assigned.map answer)))
    (hfit : response.length ≤ 65536) :
    Tells msg.version.val msg.correlationId response assigned ↔ SuitsEncoder msg := by
  have hlen : (replyBytes msg.correlationId (firstTopic msg.topicPartitions)
      (assigned.map answer)).length < 2 ^ 31 := by
    rw [hresponse, wireBytes, List.length_append] at hfit
    omega
  rw [hresponse, tells_iff (by omega) msg.correlationId.2 (length_firstTopic_lt msg) hfits hlen,
    suitsEncoder_iff, ← htps, List.map_eq_nil_iff, List.forall_mem_map]

/-- A batch with one record, of value `v`. -/
def oneRecord : RecordData :=
  .batches { records := [{ value := some (ascii "v") }] } []

/-- A request for partition 0 of each of the topics. -/
def requestFor (version : Fin 6) (topics : List ShortString) : ProduceMessage where
  version := version
  correlationId := wordOf 4 7
  topics := topics.map fun t => ⟨t, [⟨wordOf 4 0, oneRecord⟩]⟩

def topicA : ShortString := ⟨ascii "a", by decide⟩

def topicB : ShortString := ⟨ascii "b", by decide⟩

theorem offsetsFit_new {n : ℕ} : OffsetsFit {} n := by
  intro tp log hfind
  cases hfind

/-- A request of version 5 for two partitions of the topic `a`. -/
def requestForTwo : ProduceMessage where
  version := 5
  correlationId := wordOf 4 7
  topics := [⟨topicA, [⟨wordOf 4 1, oneRecord⟩, ⟨wordOf 4 0, oneRecord⟩]⟩]

/-- What goes wrong for a request: everything is appended, the response fits the buffer, and the
client cannot read off it what was appended. -/
def AnsweredWrong (msg : ProduceMessage) : Prop :=
  ∃ out q assigned b', routeRequest (Broker.handlers .plain) (Memory.ofBytes msg.frame)
      msg.frame.length 65536 (some {}) = some out ∧
    out.call = some (.produce q) ∧ appendEach q.batches {} = some (assigned, b') ∧
    assigned.map Prod.fst = msg.topicPartitions ∧ out.response.length ≤ 65536 ∧
    ¬Tells msg.version.val msg.correlationId out.response assigned

theorem answeredWrong_of_not_suitsEncoder {msg : ProduceMessage}
    (hsize : msg.frame.length < 2 ^ 31) (hshort : msg.Short) (hsuits : ¬SuitsEncoder msg)
    (hwidth : 22 + (firstTopic msg.topicPartitions).length + msg.topicPartitions.length * 30 ≤
      65536) :
    AnsweredWrong msg := by
  obtain ⟨out, q, assigned, b', hroute, hcall, heach, -, htps, hfits, hresponse⟩ :=
    exists_routed .plain 65536 hsize hshort (Memory.holds_ofBytes _) offsetsFit_new
  have hfit : out.response.length ≤ 65536 := by
    have hcount := congrArg List.length htps
    rw [List.length_map] at hcount
    rw [hresponse, wireBytes, List.length_append, length_beInt, length_replyBytes, List.length_map,
      hcount]
    omega
  refine ⟨out, q, assigned, b', hroute, hcall, heach, htps, hfit, ?_⟩
  rw [tells_iff_suitsEncoder htps hfits hresponse hfit]
  exact hsuits

end StrikeMQ.Analysis.ProduceAnswers
