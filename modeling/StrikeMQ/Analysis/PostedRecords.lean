import StrikeMQ.Interface.MessageHistory
import StrikeMQ.Analysis.WireStorage

/-!
# The batches of the REST producer

The REST producer writes its records with code of its own. For every list of messages of
fewer than `2^31` bytes it writes Kafka's format: a record for each message, without headers,
with the place of the message as its offset delta; and the log stores the batch of these
records under the next offset.
-/

set_option autoImplicit false

namespace StrikeMQ.Analysis.PostedRecords

open StrikeMQ.Lib StrikeMQ.Model StrikeMQ.Interface
open StrikeMQ.Model.PartitionLog (serializeBatch assignOffsets)
open StrikeMQ.Analysis.RecordDecoding StrikeMQ.Analysis.WireStorage

/-! ## Varints -/

/-- INTERNAL: POST zigzags a number as the format does. -/
theorem zigzag_eq {v : ℤ} (h : Fits 8 v) : HttpServer.zigzag v = zigzag v := by
  obtain ⟨hlo, hhi⟩ := h
  unfold HttpServer.zigzag zigzag
  by_cases hv : 0 ≤ v
  · rw [if_neg (show ¬v < 0 by omega), if_pos hv, show toUInt64 0 = 0 from rfl, Nat.xor_zero,
      toUInt64, Int.emod_eq_of_lt (by omega) (by omega)]
  · have hones : toUInt64 (-1) = 2 ^ 64 - 1 := rfl
    have hdouble : toUInt64 (2 * v) = (2 * v + 2 ^ 64).toNat := by
      unfold toUInt64
      omega
    rw [if_pos (show v < 0 by omega), if_neg hv, hones, hdouble,
      xor_two_pow_sub_one (by omega)]
    omega

/-- INTERNAL: it splits a number into the groups of the format. -/
theorem varintGroups_eq (fuel : ℕ) {n : ℕ} (h : n < 128 ^ (fuel + 1)) :
    HttpServer.varintGroups fuel n = uvarint (fuel + 1) n := by
  induction fuel generalizing n with
  | zero =>
    rw [HttpServer.varintGroups, uvarint, if_pos (by omega)]
  | succ fuel ih =>
    rw [HttpServer.varintGroups, uvarint]
    by_cases hlt : n < 128
    · rw [if_neg (by omega), if_pos hlt]
    · have hmask : n &&& 0x7f ||| 0x80 = n % 128 + 128 := by
        have hlow : n &&& 0x7f = n % 2 ^ 7 := Nat.and_two_pow_sub_one_eq_mod n 7
        have hor := Nat.two_pow_add_eq_or_of_lt (Nat.mod_lt n (show 0 < 2 ^ 7 by norm_num)) 1
        rw [hlow, Nat.or_comm, ← hor]
        omega
      have hshift : n >>> 7 = n / 128 := Nat.shiftRight_eq_div_pow n 7
      rw [if_pos (by omega), if_neg hlt, hmask, hshift, ih (more_groups h hlt).2]

theorem writeVarint_eq_varlong {v : ℤ} (h : Fits 8 v) : HttpServer.writeVarint v = varlong v := by
  have hlt := zigzag_lt_of_fits h
  rw [HttpServer.writeVarint, zigzag_eq h, varintGroups_eq 9 (by omega), varlong]

theorem writeVarint_eq {v : ℤ} (h : Fits 4 v) : HttpServer.writeVarint v = varint v := by
  rw [writeVarint_eq_varlong (h.mono (by norm_num)), varlong_eq_varint h]

/-! ## Records and batches -/

/-- A message as a record. -/
def postedRecord (i : ℕ) (m : Bytes × Bytes) : WireRecord where
  offsetDelta := wordOf 4 i
  key := if m.1 = [] then none else some m.1
  value := some m.2

/-- The batch that a post becomes at offset `o`. -/
def postedBatch (o : ℤ) (p : Post) : WireBatch where
  baseOffset := wordOf 8 o
  partitionLeaderEpoch := wordOf 4 0
  lastOffsetDelta := wordOf 4 (p.messages.length - 1)
  firstTimestamp := p.now
  maxTimestamp := p.now
  records := p.messages.mapIdx postedRecord

/-- What is written of a message before its length is known.
SOURCE: http/http_server.cpp:989-1003 -/
def content (i : ℕ) (key value : Bytes) : Bytes :=
  [0] ++ HttpServer.writeVarint 0 ++ HttpServer.writeVarint i ++
    (if key = [] then HttpServer.writeVarint (-1) else HttpServer.writeVarint key.length ++ key) ++
    HttpServer.writeVarint value.length ++ value ++ HttpServer.writeVarint 0

theorem encodeRecord_eq_content (i : ℕ) (key value : Bytes) :
    HttpServer.encodeRecord i key value =
      HttpServer.writeVarint (content i key value).length ++ content i key value :=
  rfl

/-- INTERNAL: what it writes behind a record's length is the body of the format. -/
theorem content_eq {i : ℕ} (hi : i < 2 ^ 31) {m : Bytes × Bytes}
    (hlen : (content i m.1 m.2).length < 2 ^ 31) :
    content i m.1 m.2 = (postedRecord i m).body := by
  have hzero : Fits 4 0 := by decide
  have hminus : Fits 4 (-1) := by decide
  have hplace : Fits 4 i := fits_four_of_lt hi
  have hvalue : Fits 4 m.2.length := by
    refine fits_four_of_lt (lt_of_le_of_lt ?_ hlen)
    simp only [content, List.length_append]
    omega
  have hkey : (if m.1 = [] then HttpServer.writeVarint (-1)
      else HttpServer.writeVarint m.1.length ++ m.1) = varBytes (postedRecord i m).key := by
    unfold postedRecord
    by_cases hnil : m.1 = []
    · rw [if_pos hnil, if_pos hnil, writeVarint_eq hminus, varBytes]
    · have hfits : Fits 4 m.1.length := by
        refine fits_four_of_lt (lt_of_le_of_lt ?_ hlen)
        simp only [content, if_neg hnil, List.length_append]
        omega
      rw [if_neg hnil, if_neg hnil, writeVarint_eq hfits, varBytes]
  have hdelta : (postedRecord i m).offsetDelta.val = i := wordOf_of_fits hplace
  have htime : varlong (postedRecord i m).timestampDelta = varint 0 := varlong_eq_varint hzero
  have hheaders : varArray WireRecord.headerBytes (postedRecord i m).headers = varint 0 :=
    List.append_nil _
  have hstored : varBytes (postedRecord i m).value = varint m.2.length ++ m.2 := rfl
  rw [content, hkey, WireRecord.body, hdelta, htime, hheaders, hstored, writeVarint_eq hzero,
    writeVarint_eq hplace, writeVarint_eq hvalue]
  simp only [List.append_assoc]
  rfl

/-- INTERNAL: **a message is written as a record of Kafka's format.** -/
theorem encodeRecord_eq {i : ℕ} (hi : i < 2 ^ 31) {m : Bytes × Bytes}
    (hlen : (HttpServer.encodeRecord i m.1 m.2).length < 2 ^ 31) :
    HttpServer.encodeRecord i m.1 m.2 = (postedRecord i m).bytes := by
  rw [encodeRecord_eq_content, List.length_append] at hlen
  have hcontent := content_eq hi (m := m) (by omega)
  rw [encodeRecord_eq_content, writeVarint_eq (fits_four_of_lt (by omega)), hcontent]
  rfl

theorem headers_postedBatch (o : ℤ) (p : Post) :
    ∀ r ∈ (postedBatch o p).records, r.headers = [] := by
  intro r hr
  obtain ⟨i, hi, rfl⟩ := List.mem_mapIdx.mp hr
  rfl

theorem length_records_postedBatch (o : ℤ) (p : Post) :
    (postedBatch o p).records.length = p.messages.length :=
  List.length_mapIdx

section Post

variable {p : Post} (hsize : p.size < 65536)

/-- The encoded messages of a post. -/
def buffers (p : Post) : List Bytes :=
  p.messages.mapIdx fun i m => HttpServer.encodeRecord i m.1 m.2

theorem size_eq (p : Post) : p.size = 61 + (buffers p).flatten.length := by
  rw [Post.size, List.length_flatten]
  rfl

theorem length_buffers (p : Post) : (buffers p).length = p.messages.length :=
  List.length_mapIdx

/-- INTERNAL: a record has its length and its attributes, if nothing else. -/
theorem two_le_length_encodeRecord (i : ℕ) (key value : Bytes) :
    2 ≤ (HttpServer.encodeRecord i key value).length := by
  have hlength : ∀ v, 0 < (HttpServer.writeVarint v).length := by
    intro v
    rw [HttpServer.writeVarint, HttpServer.varintGroups]
    split <;> exact Nat.succ_pos _
  have hfirst := hlength (content i key value).length
  have hattributes : 1 ≤ (content i key value).length := by
    simp only [content, List.length_append, List.length_singleton]
    omega
  rw [encodeRecord_eq_content, List.length_append]
  omega

/-- INTERNAL: there are at most half as many messages as bytes. -/
theorem length_messages_le (p : Post) : 2 * p.messages.length + 61 ≤ p.size := by
  have hsum := List.card_nsmul_le_sum ((buffers p).map List.length) 2 (by
    intro n hn
    obtain ⟨buf, hbuf, rfl⟩ := List.mem_map.mp hn
    obtain ⟨i, hi, rfl⟩ := List.mem_mapIdx.mp hbuf
    exact two_le_length_encodeRecord i _ _)
  rw [List.length_map, length_buffers, smul_eq_mul] at hsum
  rw [size_eq, List.length_flatten]
  omega

include hsize

/-- INTERNAL: the records of a small batch, one for each message. -/
theorem buffers_eq : buffers p = (p.messages.mapIdx postedRecord).map WireRecord.bytes := by
  have hcount := length_messages_le p
  apply List.ext_getElem
  · rw [List.length_map, length_buffers, List.length_mapIdx]
  · intro i hi hi'
    rw [length_buffers] at hi
    have hmem : (buffers p)[i] ∈ buffers p := List.getElem_mem _
    have hle := length_le_of_mem id hmem
    rw [List.flatMap_id, id] at hle
    have hlen := size_eq p
    have hbuf : (buffers p)[i] = HttpServer.encodeRecord i (p.messages[i]).1 (p.messages[i]).2 :=
      List.getElem_mapIdx
    rw [hbuf] at hle ⊢
    rw [List.getElem_map, List.getElem_mapIdx]
    exact encodeRecord_eq (by omega) (by omega)

theorem length_bytes_postedBatch (o : ℤ) : (postedBatch o p).bytes.length = p.size := by
  have hrecords : (postedBatch o p).records = p.messages.mapIdx postedRecord := rfl
  rw [size_eq, buffers_eq hsize, WireBatch.bytes, wireBytes, List.length_append,
    List.length_append, length_body, length_beInt, length_beInt, ← List.flatMap_def, hrecords]
  omega

/-- INTERNAL: the records of the batch point to the encoded messages. -/
theorem map_data_batch (tp : TopicPartition) :
    (p.batch tp).records.map Record.data =
      (p.messages.mapIdx postedRecord).map fun r => some r.bytes := by
  have hlen := size_eq p
  have hrecords : (p.batch tp).records = (buffers p).map HttpServer.recordOf := by
    apply List.ext_getElem?
    intro i
    show (p.messages.mapIdx fun i m =>
      HttpServer.recordOf (HttpServer.encodeRecord i m.1 m.2))[i]? = _
    rw [buffers, List.getElem?_map, List.getElem?_mapIdx, List.getElem?_mapIdx, Option.map_map]
    rfl
  have hdata : ∀ buf ∈ buffers p, (HttpServer.recordOf buf).data = some buf := by
    intro buf hbuf
    have hle := length_le_of_mem id hbuf
    rw [List.flatMap_id, id] at hle
    show some (buf.take (buf.length % 2 ^ 32)) = some buf
    rw [Nat.mod_eq_of_lt (by omega), List.take_length]
  have hmap : (buffers p).map (Record.data ∘ HttpServer.recordOf) = (buffers p).map some :=
    List.map_congr_left hdata
  rw [hrecords, List.map_map, hmap, buffers_eq hsize, List.map_map]
  rfl

/-- The batch as the decoder would have left it, had it come over the wire. -/
theorem decodes_batch (tp : TopicPartition) {o : ℤ} (ho : Fits 8 o) :
    Decodes (postedBatch o p)
      { p.batch tp with baseOffset := o, lastOffset := o + (p.messages.length - 1) } := by
  have hcount := length_messages_le p
  have hdelta : (postedBatch o p).lastOffsetDelta.val = p.messages.length - 1 :=
    wordOf_of_fits (by constructor <;> norm_num <;> omega)
  have hbase : (postedBatch o p).baseOffset.val = o := wordOf_of_fits ho
  exact {
    baseOffset := hbase.symm
    lastOffset := by rw [hbase, hdelta]
    partitionLeaderEpoch := rfl
    magic := rfl
    crc := rfl
    attributes := rfl
    firstTimestamp := rfl
    maxTimestamp := rfl
    producerId := rfl
    producerEpoch := rfl
    baseSequence := rfl
    records := map_data_batch hsize tp }

theorem serializedSize_batch (tp : TopicPartition) : (p.batch tp).serializedSize = p.size := by
  rw [← length_bytes_postedBatch hsize 0,
    ← serializedSize_of_decodes (decodes_batch hsize tp (by decide))]
  rfl

theorem exists_bytes_batch (tp : TopicPartition) :
    ∀ r ∈ (p.batch tp).records, r.data.isSome ∧ 0 < r.totalSize := by
  have hall := exists_bytes_of_decodes (decodes_batch hsize tp (show Fits 8 0 by decide))
  exact hall

/-- INTERNAL: **the log stores the batch of a post in Kafka's format.** -/
theorem serializeBatch_batch (tp : TopicPartition) {o : ℤ} (ho : Fits 8 o) :
    serializeBatch (assignOffsets o (p.batch tp)) appendBufferSize =
      some (postedBatch o p).bytes := by
  have hdecodes := decodes_batch hsize tp ho
  have hdelta : (postedBatch o p).lastOffsetDelta.val = (postedBatch o p).records.length - 1 := by
    have hlast : o + (p.messages.length - 1) =
        (postedBatch o p).baseOffset + (postedBatch o p).lastOffsetDelta := hdecodes.lastOffset
    have hbase : o = (postedBatch o p).baseOffset := hdecodes.baseOffset
    rw [length_records_postedBatch]
    omega
  have hser := serializeBatch_of_decodes hdecodes o hdelta
    (by rw [length_bytes_postedBatch hsize]; exact hsize)
  have hbytes : rebased (withoutCrc (postedBatch o p)) o = (postedBatch o p).bytes := by
    rw [rebased_eq, WireBatch.bytes, ← hdecodes.baseOffset]
    rfl
  rw [← hbytes, ← hser]
  rfl

end Post

end StrikeMQ.Analysis.PostedRecords
