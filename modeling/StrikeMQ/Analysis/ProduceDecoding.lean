import StrikeMQ.Interface.ProduceProtocol
import StrikeMQ.Model.RequestRouter
import StrikeMQ.Analysis.RecordDecoding

/-!
# Decoding Produce requests

A Produce request that is laid out in Kafka's format reaches the handler as one batch for each
of its partitions, in wire order, with the partition's topic and index and the records that were
sent for it. The nesting of the request is lost here: the handler gets a flat list.
-/

set_option autoImplicit false

namespace StrikeMQ.Analysis.ProduceDecoding

open StrikeMQ.Lib StrikeMQ.Model StrikeMQ.Model.BinaryReader StrikeMQ.Model.KafkaDecoder
open StrikeMQ.Model.RequestRouter StrikeMQ.Interface
open StrikeMQ.Analysis.WireReading StrikeMQ.Analysis.RecordDecoding

variable {m : Memory}

/-- The batch that the handler gets for a partition of the request. -/
structure Received (p : TopicPartition × RecordData) (b : RecordBatch) : Prop where
  topicPartition : b.topicPartition = p.1
  records : b.records.map Record.data = p.2.records.map fun r => some r.bytes
  small : ∀ r ∈ b.records, r.totalSize < 2 ^ 31

theorem RecordData.bytes_ne_nil (d : RecordData) : d.bytes ≠ [] := by
  rw [← List.length_pos_iff]
  cases d with
  | batches first more =>
    rw [RecordData.bytes, WireBatch.bytes, List.length_append, List.length_append, length_beInt]
    omega
  | messageSet s hheader hmagic =>
    rw [RecordData.bytes]
    omega

/-- INTERNAL: a reader of its own, over bytes that were read before, leaves the first reader
where it was. -/
theorem readsIf_nested {α β : Type} {P : Prop} {x : ReaderM α} {f : α → ReaderM β} {s n a : ℕ}
    {front bs : Bytes} {v : α} {w : β} (hx : ReadsIf m P x s front v) (hfront : m.HoldsAt s front)
    (hf : Reads m (f v) a bs w) :
    ReadsIf m P (do
      let r ← MemReader.get
      MemReader.set { data := s, length := n }
      let y ← x
      MemReader.set r
      f y) a bs w := by
  constructor
  · intro hP hbytes r hr
    have hrun := hx.1 hP hfront { data := s, length := n } rfl
    show ((x.run m { data := s, length := n }).bind fun y => (f y.1).run m r) = _
    rw [hrun, Option.bind_some]
    exact hf hbytes r hr
  · intro hnot _ r _
    show ((x.run m { data := s, length := n }).bind fun y => (f y.1).run m r) = _
    rw [hx.2 hnot hfront { data := s, length := n } rfl]
    rfl

/-- INTERNAL: a partition's data is decoded to one batch of its records. -/
theorem exists_readsIf_partition (name : Bytes) {p : PartitionData}
    (hlen : p.bytes.length < 2 ^ 31) :
    ∃ b, Received (⟨name, p.index⟩, p.records) b ∧
      ∀ topic : View, m.HoldsAt topic.start name → topic.size = name.length →
        ∀ a, ReadsIf m p.records.Short (decodeProducePartition topic) a p.bytes [b] := by
  have hdata : p.records.bytes.length < 2 ^ 31 := by
    simp only [PartitionData.bytes, wireBytes, List.length_append, length_beInt] at hlen
    omega
  obtain ⟨front, back, b, hsplit, hrecords, hreads⟩ := exists_readsIf_recordData (m := m) hdata
  have hsmall : ∀ r ∈ b.records, r.totalSize < 2 ^ 31 := by
    intro r hr
    have hmem := List.mem_map_of_mem (f := Record.data) hr
    rw [hrecords] at hmem
    obtain ⟨w, hw, hdata'⟩ := List.mem_map.mp hmem
    have hle := length_record_le hw
    rw [Record.totalSize, ← hdata', Option.getD_some]
    omega
  refine ⟨{ b with topicPartition := ⟨name, p.index⟩ }, ⟨rfl, hrecords, hsmall⟩, ?_⟩
  intro topic htopic hsize a
  have hne : p.records.bytes.length ≠ 0 :=
    (List.length_pos_iff.mpr (RecordData.bytes_ne_nil p.records)).ne'
  rw [PartitionData.bytes, ← List.append_nil (wireBytes p.records.bytes)]
  refine (reads_readInt32 p.index.2 a).bind_if fun _ => ?_
  refine (reads_readBytes hdata _).bind_if fun hview => ?_
  rw [if_neg hne]
  have hfront : m.HoldsAt (a + (beInt 4 p.index).length + 4) front := by
    have hbytes := hview.right
    rw [length_beInt 4 p.records.bytes.length, hsplit] at hbytes
    exact hbytes.left
  exact readsIf_nested (hreads _) hfront ((reads_copy htopic hsize _).bind_pure rfl)

/-- One round of the loop over the topics.
SOURCE: protocol/kafka_codec.cpp:22-35 -/
def decodeProduceTopic : ReaderM (List RecordBatch) := do
  let topic ← readString
  let np ← readInt32
  let bs ← MemReader.times (decodeProducePartition topic) np.toNat
  return bs.flatten

theorem length_partitions_le (t : TopicData) :
    t.partitions.length ≤ (t.partitions.flatMap PartitionData.bytes).length := by
  apply length_le_length_flatMap
  intro p _
  rw [← List.length_pos_iff, PartitionData.bytes, List.length_append, length_beInt]
  omega

theorem exists_readsIf_topic {t : TopicData} (hlen : t.bytes.length < 2 ^ 31) :
    ∃ bs, List.Forall₂ Received t.byPartition bs ∧
      ∀ a, ReadsIf m (∀ p ∈ t.byPartition, p.2.Short) decodeProduceTopic a t.bytes bs := by
  have hparts : (t.partitions.flatMap PartitionData.bytes).length < 2 ^ 31 := by
    simp only [TopicData.bytes, wireArray, List.length_append] at hlen
    omega
  have hcount := length_partitions_le t
  have hall : ∀ p ∈ t.partitions, ∃ b, Received (⟨t.name, p.index⟩, p.records) b ∧
      ∀ topic : View, m.HoldsAt topic.start t.name → topic.size = t.name.val.length →
        ∀ a, ReadsIf m p.records.Short (decodeProducePartition topic) a p.bytes [b] := by
    intro p hp
    have hle := length_le_of_mem PartitionData.bytes hp
    exact exists_readsIf_partition t.name.val (by omega)
  obtain ⟨bs, hbs⟩ := exists_forall₂ hall
  refine ⟨bs, ?_, ?_⟩
  · rw [TopicData.byPartition, List.forall₂_map_left_iff]
    exact hbs.imp fun _ _ h => h.1
  · intro a
    rw [TopicData.byPartition, List.forall_mem_map]
    refine (reads_readString t.name a).bind_if fun hname => ?_
    refine (reads_readInt32 (fits_four_of_lt (by omega)) _).bind_if fun _ => ?_
    have hchars : m.HoldsAt (a + 2) t.name.val := by
      have hright := hname.right
      rwa [length_beInt] at hright
    have hloop : ∀ a', ReadsIf m (∀ p ∈ t.partitions, p.records.Short) (MemReader.times
        (decodeProducePartition ⟨a + 2, t.name.val.length⟩) t.partitions.length) a'
          (t.partitions.flatMap PartitionData.bytes) (bs.map fun b => [b]) := by
      apply readsIf_times
      rw [List.forall₂_map_right_iff]
      exact hbs.imp fun _ _ h => h.2 ⟨a + 2, t.name.val.length⟩ hchars rfl
    rw [Int.toNat_natCast]
    exact (hloop _).bind_pure (by rw [← List.flatMap_def, List.flatMap_singleton'])

/-- INTERNAL: what is received for the partitions of each topic is received for all of them. -/
theorem forall₂_flatten {ts : List TopicData} {bss : List (List RecordBatch)}
    (h : List.Forall₂ (fun t bs => List.Forall₂ Received t.byPartition bs) ts bss) :
    List.Forall₂ Received (ts.flatMap TopicData.byPartition) bss.flatten := by
  induction h with
  | nil => exact List.Forall₂.nil
  | cons hhead _ ih =>
    rw [List.flatMap_cons, List.flatten_cons]
    exact List.rel_append hhead ih

theorem length_topics_le (msg : ProduceMessage) :
    (msg.topics.flatMap TopicData.bytes).length ≤ msg.frame.length := by
  simp only [ProduceMessage.frame, wireArray, List.length_append]
  omega

theorem count_topics_le (msg : ProduceMessage) :
    msg.topics.length ≤ (msg.topics.flatMap TopicData.bytes).length := by
  apply length_le_length_flatMap
  intro t _
  rw [← List.length_pos_iff, TopicData.bytes, wireString, List.length_append, List.length_append,
    length_beInt]
  omega

/-- The request behind its header. -/
def bodyBytes (msg : ProduceMessage) : Bytes :=
  (if 3 ≤ msg.version.val then wireNullableString (msg.transactionalId.map Subtype.val) else []) ++
    (beInt 2 msg.acks ++ (beInt 4 msg.timeoutMs ++
      (beInt 4 msg.topics.length ++ msg.topics.flatMap TopicData.bytes)))

theorem short_iff (msg : ProduceMessage) :
    msg.Short ↔ ∀ t ∈ msg.topics, ∀ p ∈ t.byPartition, p.2.Short := by
  rw [ProduceMessage.Short, ProduceMessage.partitions, List.forall_mem_flatMap]

/-- INTERNAL: **the batches of a Produce request.** They do not depend on where the request
stands in memory. -/
theorem exists_readsIf_decodeProduce {msg : ProduceMessage} (hlen : msg.frame.length < 2 ^ 31) :
    ∃ batches, List.Forall₂ Received msg.partitions batches ∧
      ∀ (h : RequestHeader) (clientId : Bytes), h.apiVersion = msg.version.val →
        (∀ a, Reads m (copy h.clientId) a [] clientId) →
        ∀ a, ReadsIf m msg.Short (decodeProduce h) a (bodyBytes msg)
          { correlationId := h.correlationId
            clientId := clientId
            acks := msg.acks
            timeoutMs := msg.timeoutMs
            batches := batches } := by
  have htopics := lt_of_le_of_lt (length_topics_le msg) hlen
  have hcount := count_topics_le msg
  have hall : ∀ t ∈ msg.topics, ∃ bs, List.Forall₂ Received t.byPartition bs ∧
      ∀ a, ReadsIf m (∀ p ∈ t.byPartition, p.2.Short) decodeProduceTopic a t.bytes bs := by
    intro t ht
    have hle := length_le_of_mem TopicData.bytes ht
    exact exists_readsIf_topic (by omega)
  obtain ⟨bss, hbss⟩ := exists_forall₂ hall
  have hloop := readsIf_times (hbss.imp fun _ _ h => h.2)
  rw [← short_iff] at hloop
  refine ⟨bss.flatten, forall₂_flatten (hbss.imp fun _ _ h => h.1), ?_⟩
  intro h clientId hversion hcopy a
  obtain ⟨v, hv, -⟩ := exists_reads_nullableString (m := m) msg.transactionalId a
  refine (hcopy a).bind_nil_if (ReadsIf.ite_bind (by omega) hv fun a => ?_)
  refine (reads_readInt16 msg.acks.2 a).bind_if fun _ => ?_
  refine (reads_readInt32 msg.timeoutMs.2 _).bind_if fun _ => ?_
  refine (reads_readInt32 (fits_four_of_lt (by omega)) _).bind_if fun _ => ?_
  rw [Int.toNat_natCast]
  exact (hloop _).bind_pure rfl

/-- The header of a request: its key, version, correlation id and client id. -/
def headerBytes (key version correlationId : ℤ) (clientId : Option ShortString) : Bytes :=
  beInt 2 key ++ (beInt 2 version ++ (beInt 4 correlationId ++
    wireNullableString (clientId.map Subtype.val)))

theorem frame_eq (msg : ProduceMessage) :
    msg.frame = headerBytes 0 msg.version.val msg.correlationId msg.clientId ++ bodyBytes msg := by
  simp only [ProduceMessage.frame, headerBytes, bodyBytes, wireArray, List.append_assoc]

section Header

variable {key version correlationId : ℤ} (hkey : Fits 2 key) (hversion : Fits 2 version)
  (hid : Fits 4 correlationId)

include hkey hversion hid

/-- INTERNAL: a header is read to its fields, with the client id as a view of its bytes. -/
theorem exists_reads_decodeHeader (clientId : Option ShortString) (a : ℕ) :
    ∃ view, Reads m decodeHeader a (headerBytes key version correlationId clientId)
        ⟨ApiKey.ofInt key, version, correlationId, view⟩ ∧
      (m.HoldsAt a (headerBytes key version correlationId clientId) →
        ∀ a', Reads m (copy view) a' [] ((clientId.map Subtype.val).getD [])) := by
  obtain ⟨view, hview, hcopy⟩ := exists_reads_nullableString (m := m) clientId
    (a + (beInt 2 key).length + (beInt 2 version).length + (beInt 4 correlationId).length)
  refine ⟨view, ?_, fun hbytes => hcopy hbytes.right.right.right⟩
  refine (reads_readInt16 hkey a).bind fun _ => ?_
  refine (reads_readInt16 hversion _).bind fun _ => ?_
  refine (reads_readInt32 hid _).bind fun _ => ?_
  exact hview.bind_pure rfl

/-- INTERNAL: **the first fields of a frame are read twice.** The first reader only looks at the
key; for any other key than that of ApiVersions a second one starts over. -/
theorem run_decodeRequest_of_other {more : Bytes} (metadataHandler : Bool) (len : ℕ)
    (hbytes : m.HoldsAt 0 (beInt 2 key ++ (beInt 2 version ++ (beInt 4 correlationId ++ more))))
    (hother : ApiKey.ofInt key ≠ .apiVersions) :
    (decodeRequest metadataHandler).run m { length := len } = (do
      let h ← decodeHeader
      let body ← decodeBody metadataHandler h
      return (⟨h.correlationId, h.apiVersion, body⟩ : RoutedRequest)).run m { length := len } := by
  obtain ⟨r₁, h₁, hr₁⟩ :=
    (reads_readInt16 hkey 0).exists_run hbytes.left (r := { length := len }) rfl
  obtain ⟨r₂, h₂, hr₂⟩ := (reads_readInt16 hversion _).exists_run hbytes.right.left hr₁
  obtain ⟨r₃, h₃, -⟩ := (reads_readInt32 hid _).exists_run hbytes.right.right.left hr₂
  rw [decodeRequest, run_bind]
  show (readInt16 >>= _).run m { length := len } = _
  rw [run_bind, h₁, Option.bind_some, run_bind, h₂, Option.bind_some, run_bind, h₃,
    Option.bind_some, if_neg hother]
  rfl

theorem exists_run_decodeRequest {clientId : Option ShortString} {body : Bytes}
    {r : RoutedRequest} (metadataHandler : Bool) (len : ℕ)
    (hbytes : m.HoldsAt 0 (headerBytes key version correlationId clientId ++ body))
    (hother : ApiKey.ofInt key ≠ .apiVersions)
    (hread : Reads m (do
      let h ← decodeHeader
      let body ← decodeBody metadataHandler h
      return (⟨h.correlationId, h.apiVersion, body⟩ : RoutedRequest)) 0
      (headerBytes key version correlationId clientId ++ body) r) :
    ∃ r', (decodeRequest metadataHandler).run m { length := len } = some (r, r') := by
  obtain ⟨r', h', -⟩ := hread.exists_run hbytes (r := { length := len }) rfl
  refine ⟨r', ?_⟩
  rw [run_decodeRequest_of_other hkey hversion hid metadataHandler len hbytes.left hother, h']

end Header

/-- INTERNAL: **a Produce frame is decoded to the request that it lays out**, or has no outcome. -/
theorem exists_decodeRequest_produce {msg : ProduceMessage} (hlen : msg.frame.length < 2 ^ 31)
    (hbytes : m.HoldsAt 0 msg.frame) (metadataHandler : Bool) (len : ℕ) :
    (msg.Short → ∃ q rest, (decodeRequest metadataHandler).run m { length := len } =
        some (⟨msg.correlationId, msg.version.val, .produce q⟩, rest) ∧
      List.Forall₂ Received msg.partitions q.batches) ∧
    (¬msg.Short → (decodeRequest metadataHandler).run m { length := len } = none) := by
  rw [frame_eq] at hbytes
  have hkey : Fits 2 0 := by decide
  have hversion : Fits 2 (msg.version.val : ℤ) := fits_two_of_lt (by omega)
  obtain ⟨batches, hbatches, hproduce⟩ := exists_readsIf_decodeProduce (m := m) hlen
  obtain ⟨view, hheader, hcopy⟩ := exists_reads_decodeHeader (m := m) hkey hversion
    msg.correlationId.2 msg.clientId 0
  have hbody := hproduce ⟨.produce, msg.version.val, msg.correlationId, view⟩ _ rfl
    (hcopy hbytes.left)
  have hrequest := hheader.bind_if (f := fun h => do
    let body ← decodeBody metadataHandler h
    return (⟨h.correlationId, h.apiVersion, body⟩ : RoutedRequest))
    fun _ => ((hbody _).bind_pure rfl).bind_pure rfl
  rw [run_decodeRequest_of_other hkey hversion msg.correlationId.2 metadataHandler len hbytes.left
    (by decide)]
  refine ⟨fun hshort => ?_, fun hlong => hrequest.2 hlong hbytes _ rfl⟩
  obtain ⟨r', hrun, -⟩ := (hrequest.1 hshort).exists_run hbytes (r := { length := len }) rfl
  exact ⟨_, r', hrun, hbatches⟩

/-! ## What the partitions of a request add up to -/

theorem topicPartition_fits {msg : ProduceMessage} {tp : TopicPartition}
    (h : tp ∈ msg.topicPartitions) : tp.topic.length < 2 ^ 15 ∧ Fits 4 tp.partition := by
  obtain ⟨p, hp, rfl⟩ := List.mem_map.mp h
  obtain ⟨t, -, hp⟩ := List.mem_flatMap.mp hp
  obtain ⟨q, -, rfl⟩ := List.mem_map.mp hp
  exact ⟨t.name.2, q.index.2⟩

theorem recordCount_le (msg : ProduceMessage) : msg.recordCount ≤ msg.frame.length := by
  have hpartition : ∀ p : PartitionData, p.records.records.length ≤ p.bytes.length := by
    intro p
    have hle := length_records_le p.records
    rw [PartitionData.bytes, wireBytes, List.length_append, List.length_append]
    omega
  have htopic : ∀ t : TopicData,
      (t.byPartition.map fun p => p.2.records.length).sum ≤ t.bytes.length := by
    intro t
    have hle := sum_le_length_flatMap hpartition t.partitions
    rw [TopicData.byPartition, List.map_map, TopicData.bytes, wireArray, List.length_append,
      List.length_append]
    exact le_trans hle (by omega)
  have hall := sum_le_length_flatMap htopic msg.topics
  have hcount : msg.recordCount =
      (msg.topics.map fun t => (t.byPartition.map fun p => p.2.records.length).sum).sum := by
    rw [ProduceMessage.recordCount, ProduceMessage.partitions, List.map_flatMap, List.flatMap_def,
      List.sum_flatten, List.map_map]
    rfl
  rw [hcount]
  exact le_trans hall (length_topics_le msg)

theorem topicPartitions_eq {msg : ProduceMessage} {batches : List RecordBatch}
    (h : List.Forall₂ Received msg.partitions batches) :
    batches.map RecordBatch.topicPartition = msg.topicPartitions :=
  map_eq_of_forall₂ (h.imp fun _ _ hr => hr.topicPartition)

theorem recordCount_eq {msg : ProduceMessage} {batches : List RecordBatch}
    (h : List.Forall₂ Received msg.partitions batches) :
    (batches.map fun b => b.records.length).sum = msg.recordCount := by
  have hmap : (batches.map fun b => b.records.length) =
      msg.partitions.map fun p => p.2.records.length := by
    refine map_eq_of_forall₂ (h.imp fun p b hr => ?_)
    have hlen := congrArg List.length hr.records
    rwa [List.length_map, List.length_map] at hlen
  rw [hmap, ProduceMessage.recordCount]

theorem small_of_received {ps : List (TopicPartition × RecordData)} {batches : List RecordBatch}
    (h : List.Forall₂ Received ps batches) :
    ∀ b ∈ batches, ∀ r ∈ b.records, r.totalSize < 2 ^ 31 := by
  induction h with
  | nil => exact fun b hb => absurd hb List.not_mem_nil
  | cons hhead _ ih =>
    intro b hb
    rcases List.mem_cons.mp hb with rfl | hb
    · exact hhead.small
    · exact ih b hb

end StrikeMQ.Analysis.ProduceDecoding
