import StrikeMQ.Interface.ResponseSchemas
import StrikeMQ.Analysis.WireWriting

/-!
# Regrouping results by topic loses nothing

Four encoders get a flat list of results and write them under their topics. They go over the list
to collect the topics, and for each topic once more to count its results and once more to write
them. A client that parses the response by the schema of its version finds each topic once, in the
order in which the topics first occur, and under it the results of this topic in their order. As
long as the response is shorter than `2 ^ 31` bytes, all the counts and lengths in it fit their
fields.
-/

set_option autoImplicit false

namespace StrikeMQ.Analysis.ResponseRegrouping

open StrikeMQ.Lib StrikeMQ.Lib.Parser StrikeMQ.Model StrikeMQ.Model.KafkaEncoder
open StrikeMQ.Interface StrikeMQ.Analysis.WireWriting

/-! ## The topics of a response -/

section Topics

variable {α ε : Type} (tp : α → TopicPartition) (layout : α → Bytes) (value : α → ε)
  (parts : List α)

/-- The results of one topic. -/
def ofTopic (topic : Bytes) : List α :=
  parts.filter fun p => (tp p).topic = topic

def topicBytes (topic : Bytes) : Bytes :=
  wireString topic ++ wireArray layout (ofTopic tp parts topic)

def topicsBytes : Bytes :=
  wireArray (topicBytes tp layout parts) (topicsOf (parts.map tp))

def topicsValue : List (Bytes × List ε) :=
  (topicsOf (parts.map tp)).map fun topic => (topic, (ofTopic tp parts topic).map value)

theorem mem_topicsOf {name : Bytes} :
    name ∈ topicsOf (parts.map tp) ↔ name ∈ parts.map fun p => (tp p).topic := by
  rw [topicsOf, mem_distinct, List.map_map]
  rfl

/-- INTERNAL: **the topics list the results.** -/
theorem regrouped_topicsValue :
    Regrouped (fun p => (tp p).topic) value parts (topicsValue tp value parts) := by
  have hnames : (topicsValue tp value parts).map Prod.fst = topicsOf (parts.map tp) := by
    rw [topicsValue, List.map_map]
    exact List.map_id _
  have htopics : parts.map (fun p => (tp p).topic) = (parts.map tp).map TopicPartition.topic := by
    rw [List.map_map]
    rfl
  refine ⟨?_, fun name => ?_, ?_, fun t ht => ?_, ?_⟩
  · rw [hnames]
    exact nodup_distinct ((parts.map tp).map TopicPartition.topic)
  · rw [hnames]
    exact mem_topicsOf tp parts
  · rw [hnames, htopics]
    exact pairwise_idxOf_distinct ((parts.map tp).map TopicPartition.topic)
  · obtain ⟨topic, -, rfl⟩ := List.mem_map.mp ht
    rfl
  · have hgroups : ((topicsValue tp value parts).flatMap fun t => t.2.map fun e => (t.1, e)) =
        ((topicsOf (parts.map tp)).flatMap (ofTopic tp parts)).map
          fun p => ((tp p).topic, value p) := by
      rw [topicsValue, List.flatMap_map, List.map_flatMap]
      apply List.flatMap_congr
      intro topic _
      rw [List.map_map]
      apply List.map_congr_left
      intro p hp
      have htopic : (tp p).topic = topic := by simpa [ofTopic] using (List.mem_filter.mp hp).2
      rw [Function.comp_apply, htopic]
    rw [hgroups]
    refine (flatMap_groups_perm (fun p => (tp p).topic) (nodup_distinct _) ?_).map _
    intro p hp
    exact (mem_topicsOf tp parts).mpr (List.mem_map_of_mem hp)

variable {tp layout value parts}

/-- INTERNAL: **a client parses the topics as they were written.** What a topic or a result takes
is part of what all of them take, so the counts fit as soon as the whole does. -/
theorem parses_topics {entry : Parser ε} (htopic : ∀ p ∈ parts, (tp p).topic.length < 2 ^ 15)
    (hne : ∀ p, layout p ≠ [])
    (hentry : ∀ p ∈ parts, (layout p).length < 2 ^ 31 → Parses entry (layout p) (value p))
    (hlen : (topicsBytes tp layout parts).length < 2 ^ 31) :
    Parses (array (GroupedReply.topic entry)) (topicsBytes tp layout parts)
      (topicsValue tp value parts) := by
  have hall : ((topicsOf (parts.map tp)).flatMap (topicBytes tp layout parts)).length < 2 ^ 31 := by
    rw [topicsBytes, wireArray, List.length_append] at hlen
    omega
  have hcount : (topicsOf (parts.map tp)).length ≤
      ((topicsOf (parts.map tp)).flatMap (topicBytes tp layout parts)).length := by
    apply length_le_length_flatMap
    intro topic _
    rw [← List.length_pos_iff, topicBytes, wireString, List.length_append, List.length_append,
      length_beInt]
    omega
  refine parses_array (by omega) ?_
  intro topic hmem
  obtain ⟨p, hp, rfl⟩ := List.mem_map.mp ((mem_topicsOf tp parts).mp hmem)
  have hpart := length_le_of_mem (topicBytes tp layout parts) hmem
  have hresults : ((ofTopic tp parts (tp p).topic).flatMap layout).length < 2 ^ 31 := by
    rw [topicBytes, wireArray, List.length_append, List.length_append] at hpart
    omega
  have hresultCount : (ofTopic tp parts (tp p).topic).length ≤
      ((ofTopic tp parts (tp p).topic).flatMap layout).length :=
    length_le_length_flatMap fun q _ => hne q
  refine (parses_string (htopic p hp)).bind ?_
  refine Parses.bind_pure (parses_array (by omega) fun q hq => ?_) fun es => ((tp p).topic, es)
  have hle := length_le_of_mem layout hq
  exact hentry q (List.mem_filter.mp hq).1 (by omega)

end Topics

/-! ## The four responses -/

section Responses

variable (cap : ℕ) (cid : ℤ) (version : ℕ)

/-- The throttle time, which came with version `first`. -/
def throttleBytes (first : ℕ) : Bytes :=
  if first ≤ version then beInt 4 0 else []

theorem parses_throttle (first : ℕ) :
    Parses (since first version (word 4) 0) (throttleBytes version first) 0 := by
  have h := (parses_word (show Fits 4 0 by decide)).since first version 0
  rwa [ite_self] at h

/-- INTERNAL: the correlation id, the throttle time and the topics, which all four encoders write
first. -/
theorem data_grouped {α : Type} {entry : BinaryWriter → α → BinaryWriter} {layout : α → Bytes}
    (h : ∀ w x, (entry w x).data = w.data ++ layout x) (tp : α → TopicPartition) (parts : List α)
    (first : ℕ) (w : BinaryWriter) :
    (writeByTopic tp entry (if (version : ℤ) ≥ first then (w.writeInt32 cid).writeInt32 0
        else w.writeInt32 cid) parts).data =
      w.data ++ (beInt 4 cid ++ (throttleBytes version first ++ topicsBytes tp layout parts)) := by
  have hfront : (if (version : ℤ) ≥ first then (w.writeInt32 cid).writeInt32 0
      else w.writeInt32 cid).data = w.data ++ (beInt 4 cid ++ throttleBytes version first) := by
    unfold throttleBytes
    by_cases hv : first ≤ version
    · rw [if_pos (by omega), if_pos hv, data_writeInt32, data_writeInt32, List.append_assoc]
    · rw [if_neg (by omega), if_neg hv, data_writeInt32, List.append_nil]
  rw [data_writeByTopic _ h, hfront, List.append_assoc, List.append_assoc]
  rfl

def listOffsetsBytes (p : ListOffsetsPartitionResponse) : Bytes :=
  beInt 4 p.tp.partition ++ (beInt 2 p.errorCode ++
    if version = 0 then wireArray (beInt 8) [p.offset] else beInt 8 p.timestamp ++ beInt 8 p.offset)

/-- INTERNAL: the bytes of a ListOffsets response. -/
theorem encodeListOffsetsResponse_eq (parts : List ListOffsetsPartitionResponse) :
    encodeListOffsetsResponse cap cid parts version = wireBytes (beInt 4 cid ++
      (throttleBytes version 2 ++ topicsBytes (·.tp) (listOffsetsBytes version) parts)) := by
  refine encodeFrame_eq fun w => data_grouped cid version (fun w p => ?_) _ parts 2 w
  unfold listOffsetsBytes
  by_cases h : version = 0
  · simp [h, wireArray]
  · simp [h]

theorem parses_listOffsetsEntry {p : ListOffsetsPartitionResponse} (h : ListOffsetsSendable p) :
    Parses (GroupedReply.listOffsetsEntry version) (listOffsetsBytes version p)
      (ListOffsetsEntry.of version p) := by
  have hoffsets : Parses (array (word 8)) (wireArray (beInt 8) [p.offset]) [p.offset] := by
    have hone : ∀ x ∈ [p.offset], Parses (word 8) (beInt 8 x) (id x) := by
      intro x hx
      rw [List.mem_singleton.mp hx]
      exact parses_word h.offset
    exact parses_array (by norm_num) hone
  have hentry : Parses (GroupedReply.listOffsetsEntry version)
      (beInt 4 p.tp.partition ++ (beInt 2 p.errorCode ++
        ((if version < 1 then wireArray (beInt 8) [p.offset] else []) ++
          ((if 1 ≤ version then beInt 8 p.timestamp else []) ++
            if 1 ≤ version then beInt 8 p.offset else []))))
      ⟨p.tp.partition, p.errorCode, if version < 1 then [p.offset] else [],
        if 1 ≤ version then p.timestamp else -1, if 1 ≤ version then p.offset else -1⟩ := by
    refine (parses_word h.tp.partition).bind ((parses_word h.errorCode).bind ?_)
    refine (hoffsets.before 1 version []).bind ?_
    refine ((parses_word h.timestamp).since 1 version (-1)).bind ?_
    exact ((parses_word h.offset).since 1 version (-1)).bind_pure _
  unfold listOffsetsBytes ListOffsetsEntry.of
  by_cases hv : version = 0
  · subst hv
    simpa using hentry
  · have hpos : 1 ≤ version := by omega
    have hnot : ¬ version < 1 := by omega
    simp only [if_pos hpos, if_neg hnot, List.nil_append] at hentry
    rw [if_neg hv, if_neg hv]
    exact hentry

def fetchBytes (p : FetchPartitionResponse) : Bytes :=
  beInt 4 p.tp.partition ++ (beInt 2 p.errorCode ++ (beInt 8 p.highWatermark ++
    ((if 4 ≤ version then beInt 8 p.highWatermark else []) ++
      ((if 4 ≤ version then beInt 4 (-1) else []) ++ wireBytes (p.recordData.getD [])))))

/-- INTERNAL: the bytes of a Fetch response. -/
theorem encodeFetchResponse_eq (parts : List FetchPartitionResponse) :
    encodeFetchResponse cap cid parts version = wireBytes (beInt 4 cid ++
      (throttleBytes version 1 ++ topicsBytes (·.tp) (fetchBytes version) parts)) := by
  refine encodeFrame_eq fun w => data_grouped cid version (fun w p => ?_) _ parts 1 w
  unfold fetchBytes
  by_cases h : 4 ≤ version
  · have hcast : (version : ℤ) ≥ 4 := by omega
    simp [h, hcast]
  · have hcast : ¬ (version : ℤ) ≥ 4 := by omega
    simp [h, hcast]

theorem parses_fetchEntry {p : FetchPartitionResponse} (h : FetchSendable p)
    (hlen : (fetchBytes version p).length < 2 ^ 31) :
    Parses (GroupedReply.fetchEntry version) (fetchBytes version p) (FetchEntry.of version p) := by
  have hrecords : (p.recordData.getD []).length < 2 ^ 31 := by
    simp only [fetchBytes, wireBytes, List.length_append] at hlen
    omega
  have haborted := (parses_nullableArray_none GroupedReply.abortedTransaction).since 4 version none
  rw [ite_self] at haborted
  refine (parses_word h.tp.partition).bind ((parses_word h.errorCode).bind ?_)
  refine (parses_word h.highWatermark).bind ?_
  refine ((parses_word h.highWatermark).since 4 version (-1)).bind (haborted.bind ?_)
  exact (parses_nullableBytes hrecords).bind_pure _

def offsetCommitBytes (p : OffsetCommitPartitionResponse) : Bytes :=
  beInt 4 p.tp.partition ++ beInt 2 p.errorCode

theorem encodeOffsetCommitResponse_eq (parts : List OffsetCommitPartitionResponse) :
    encodeOffsetCommitResponse cap cid version parts = wireBytes (beInt 4 cid ++
      (throttleBytes version 3 ++ topicsBytes (·.tp) offsetCommitBytes parts)) := by
  refine encodeFrame_eq fun w => data_grouped cid version (fun w p => ?_) _ parts 3 w
  simp [offsetCommitBytes]

theorem parses_offsetCommitEntry {p : OffsetCommitPartitionResponse}
    (h : OffsetCommitSendable p) :
    Parses GroupedReply.offsetCommitEntry (offsetCommitBytes p) (OffsetCommitEntry.of p) :=
  (parses_word h.tp.partition).bind ((parses_word h.errorCode).bind_pure _)

def offsetFetchBytes (p : OffsetFetchPartitionResponse) : Bytes :=
  beInt 4 p.tp.partition ++ (beInt 8 p.offset ++ (wireString p.metadata ++ beInt 2 p.errorCode))

/-- INTERNAL: the bytes of an OffsetFetch response. -/
theorem encodeOffsetFetchResponse_eq (parts : List OffsetFetchPartitionResponse) (error : ℤ) :
    encodeOffsetFetchResponse cap cid version parts error = wireBytes (beInt 4 cid ++
      (throttleBytes version 3 ++ (topicsBytes (·.tp) offsetFetchBytes parts ++
        if 2 ≤ version then beInt 2 error else []))) := by
  have hentry : ∀ (w : BinaryWriter) (p : OffsetFetchPartitionResponse),
      ((((w.writeInt32 p.tp.partition).writeInt64 p.offset).writeString p.metadata).writeInt16
        p.errorCode).data = w.data ++ offsetFetchBytes p := by
    intro w p
    simp [offsetFetchBytes]
  refine encodeFrame_eq fun w => ?_
  have htopics := data_grouped cid version hentry (·.tp) parts 3 w
  by_cases h : 2 ≤ version
  · have hcast : (version : ℤ) ≥ 2 := by omega
    simp only [if_pos h, if_pos hcast, data_writeInt16]
    exact (congrArg (· ++ beInt 2 error) htopics).trans (by simp only [List.append_assoc])
  · have hcast : ¬ (version : ℤ) ≥ 2 := by omega
    simp only [if_neg h, if_neg hcast, List.append_nil]
    exact htopics

theorem parses_offsetFetchEntry {p : OffsetFetchPartitionResponse} (h : OffsetFetchSendable p) :
    Parses GroupedReply.offsetFetchEntry (offsetFetchBytes p) (OffsetFetchEntry.of p) := by
  refine (parses_word h.tp.partition).bind ((parses_word h.offset).bind ?_)
  exact (parses_nullableString h.metadata).bind ((parses_word h.errorCode).bind_pure _)

variable {cap cid version} {ε : Type}

/-- INTERNAL: a response without fields behind the topics. -/
theorem message_grouped {α : Type} {tp : α → TopicPartition} {layout : α → Bytes} {value : α → ε}
    {parts : List α} {entry : Parser ε} {reply : Parser (GroupedReply ε)} {first : ℕ}
    (hreply : reply = do
      let correlationId ← word 4
      let throttleTimeMs ← since first version (word 4) 0
      let topics ← array (GroupedReply.topic entry)
      return { correlationId, throttleTimeMs, topics })
    (hcid : Fits 4 cid) (htopic : ∀ p ∈ parts, (tp p).topic.length < 2 ^ 15)
    (hne : ∀ p, layout p ≠ [])
    (hentry : ∀ p ∈ parts, (layout p).length < 2 ^ 31 → Parses entry (layout p) (value p))
    (hlen : (wireBytes (beInt 4 cid ++ (throttleBytes version first ++
      topicsBytes tp layout parts))).length < 2 ^ 31) :
    message reply (wireBytes (beInt 4 cid ++ (throttleBytes version first ++
        topicsBytes tp layout parts))) =
      some { correlationId := cid, throttleTimeMs := 0, topics := topicsValue tp value parts } := by
  simp only [wireBytes, List.length_append] at hlen
  rw [hreply]
  refine message_wireBytes ?_ (by simp only [List.length_append]; omega)
  refine (parses_word hcid).bind ((parses_throttle version first).bind ?_)
  exact (parses_topics htopic hne hentry (by omega)).bind_pure _

theorem word_append_ne_nil (v : ℤ) (bs : Bytes) : beInt 4 v ++ bs ≠ [] := by
  rw [← List.length_pos_iff, List.length_append, length_beInt]
  omega

end Responses

/-- PROPERTY: **Regrouping loses nothing.** In each of the four responses a client finds exactly
the results that the encoder was given, under their topics, each topic once and in the order of
first appearance, the results of a topic in their order and with all the fields of the version. -/
theorem regrouping_loses_nothing {cap : ℕ} (hcap : cap < 2 ^ 31) {cid : ℤ} (hcid : Fits 4 cid)
    (version : ℕ) :
    (∀ parts : List ListOffsetsPartitionResponse, version ≤ 2 →
      (∀ p ∈ parts, ListOffsetsSendable p) →
      (encodeListOffsetsResponse cap cid parts version).length ≤ cap →
      ∃ reply, message (GroupedReply.listOffsets version)
          (encodeListOffsetsResponse cap cid parts version) = some reply ∧
        reply.correlationId = cid ∧
        Regrouped (·.tp.topic) (ListOffsetsEntry.of version) parts reply.topics) ∧
    (∀ parts : List FetchPartitionResponse, version ≤ 4 →
      (∀ p ∈ parts, FetchSendable p) →
      (encodeFetchResponse cap cid parts version).length ≤ cap →
      ∃ reply, message (GroupedReply.fetch version)
          (encodeFetchResponse cap cid parts version) = some reply ∧
        reply.correlationId = cid ∧
        Regrouped (·.tp.topic) (FetchEntry.of version) parts reply.topics) ∧
    (∀ parts : List OffsetCommitPartitionResponse, version ≤ 3 →
      (∀ p ∈ parts, OffsetCommitSendable p) →
      (encodeOffsetCommitResponse cap cid version parts).length ≤ cap →
      ∃ reply, message (GroupedReply.offsetCommit version)
          (encodeOffsetCommitResponse cap cid version parts) = some reply ∧
        reply.correlationId = cid ∧
        Regrouped (·.tp.topic) OffsetCommitEntry.of parts reply.topics) ∧
    (∀ (parts : List OffsetFetchPartitionResponse) (error : ℤ), version ≤ 3 →
      (∀ p ∈ parts, OffsetFetchSendable p) → Fits 2 error →
      (encodeOffsetFetchResponse cap cid version parts error).length ≤ cap →
      ∃ reply, message (GroupedReply.offsetFetch version)
          (encodeOffsetFetchResponse cap cid version parts error) = some reply ∧
        reply.correlationId = cid ∧ reply.errorCode = (if 2 ≤ version then error else 0) ∧
        Regrouped (·.tp.topic) OffsetFetchEntry.of parts reply.topics) := by
  refine ⟨?_, ?_, ?_, ?_⟩
  · intro parts _ hparts hlen
    rw [encodeListOffsetsResponse_eq] at hlen ⊢
    refine ⟨_, message_grouped rfl hcid (fun p hp => (hparts p hp).tp.topic)
      (fun p => word_append_ne_nil _ _) (fun p hp _ => parses_listOffsetsEntry version (hparts p hp))
      (by omega), rfl, regrouped_topicsValue _ _ _⟩
  · intro parts _ hparts hlen
    rw [encodeFetchResponse_eq] at hlen ⊢
    refine ⟨_, message_grouped rfl hcid (fun p hp => (hparts p hp).tp.topic)
      (fun p => word_append_ne_nil _ _) (fun p hp => parses_fetchEntry version (hparts p hp))
      (by omega), rfl, regrouped_topicsValue _ _ _⟩
  · intro parts _ hparts hlen
    rw [encodeOffsetCommitResponse_eq] at hlen ⊢
    refine ⟨_, message_grouped rfl hcid (fun p hp => (hparts p hp).tp.topic)
      (fun p => word_append_ne_nil _ _) (fun p hp _ => parses_offsetCommitEntry (hparts p hp))
      (by omega), rfl, regrouped_topicsValue _ _ _⟩
  · intro parts error _ hparts herror hlen
    rw [encodeOffsetFetchResponse_eq] at hlen ⊢
    simp only [wireBytes, List.length_append] at hlen
    let reply : GroupedReply OffsetFetchEntry :=
      { correlationId := cid
        throttleTimeMs := 0
        topics := topicsValue (·.tp) OffsetFetchEntry.of parts
        errorCode := if 2 ≤ version then error else 0 }
    refine ⟨reply, message_wireBytes ?_ (by simp only [List.length_append]; omega), rfl, rfl,
      regrouped_topicsValue (·.tp) OffsetFetchEntry.of parts⟩
    have htopics : Parses (array (GroupedReply.topic GroupedReply.offsetFetchEntry))
        (topicsBytes (·.tp) offsetFetchBytes parts)
        (topicsValue (·.tp) OffsetFetchEntry.of parts) :=
      parses_topics (fun p hp => (hparts p hp).tp.topic) (fun p => word_append_ne_nil _ _)
        (fun p hp _ => parses_offsetFetchEntry (hparts p hp)) (by omega)
    refine (parses_word hcid).bind ((parses_throttle version 3).bind (htopics.bind ?_))
    exact ((parses_word herror).since 2 version 0).bind_pure _

/-- Four results of two topics, which alternate. -/
def alternating : List FetchPartitionResponse :=
  [{ tp := ⟨ascii "a", 0⟩, highWatermark := 5, recordData := some [1, 2, 3] },
    { tp := ⟨ascii "b", 7⟩, errorCode := 3 },
    { tp := ⟨ascii "a", 1⟩, highWatermark := 9 },
    { tp := ⟨ascii "b", 7⟩, errorCode := 3 }]

/-- The third result is listed under the topic of the first one, and the result that is there
twice is listed twice. -/
theorem regrouping_loses_nothing_alternating :
    ∃ reply, message (GroupedReply.fetch 4) (encodeFetchResponse 65536 1 alternating 4) =
        some reply ∧ reply.correlationId = 1 ∧
      Regrouped (·.tp.topic) (FetchEntry.of 4) alternating reply.topics := by
  refine (regrouping_loses_nothing (show 65536 < 2 ^ 31 by norm_num) (show Fits 4 1 by decide)
    4).2.1 alternating (le_refl 4) ?_ (by decide +kernel)
  intro p hp
  simp only [alternating, List.mem_cons, List.not_mem_nil, or_false] at hp
  rcases hp with rfl | rfl | rfl | rfl <;>
    exact ⟨⟨by decide, by decide⟩, by decide, by decide⟩

end StrikeMQ.Analysis.ResponseRegrouping
