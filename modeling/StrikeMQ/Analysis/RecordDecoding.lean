import StrikeMQ.Interface.RecordFormat
import StrikeMQ.Interface.RecordLayout
import StrikeMQ.Analysis.WireReading

/-!
# Decoding record batches

A record batch that is laid out field by field is decoded to its fields, and every record to the
range of its own bytes, lengths and headers included: the decoder follows the varints of each
record to its end and keeps what it walked over. It reads nothing behind the batch. A batch of
Kafka's format is one that is laid out so.
-/

set_option autoImplicit false

namespace StrikeMQ.Analysis.RecordDecoding

open StrikeMQ.Lib StrikeMQ.Model StrikeMQ.Model.BinaryReader StrikeMQ.Model.KafkaDecoder
open StrikeMQ.Interface StrikeMQ.Analysis.WireReading

variable {β : Type} {m : Memory}

/-! ## Records laid out field by field -/

theorem reads_groups (g : Groups) (a : ℕ) : Reads m readSignedVarint a g.bytes g.value :=
  reads_varint_bytes g.ends g.short a

theorem Groups.bytes_ne_nil (g : Groups) : g.bytes ≠ [] :=
  endsWith_ne_nil g.ends

/-- INTERNAL: a byte string that may be missing is skipped when its length is not negative. -/
theorem reads_skip_content (s : SizedBytes) (a : ℕ) :
    Reads m (if s.size.value ≥ 0 then skip s.size.value else pure ()) a s.content () := by
  have hlen := s.length_content
  split
  · exact reads_skip (by omega)
  · have hnil : s.content = [] := List.eq_nil_of_length_eq_zero (by omega)
    rw [hnil]
    exact Reads.pure a ()

theorem reads_skip_content_bind {s : SizedBytes} {x : ReaderM β} {a : ℕ} {cs : Bytes} {w : β}
    (h : Reads m x (a + s.content.length) cs w) :
    Reads m (if s.size.value ≥ 0 then skip s.size.value >>= fun _ => x else x) a
      (s.content ++ cs) w := by
  have hskip := (reads_skip_content s a).bind (f := fun _ => x) fun _ => h
  split at hskip
  · next hpos =>
    rw [if_pos hpos]
    exact hskip
  · next hneg =>
    rw [if_neg hneg]
    exact hskip

/-- INTERNAL: a record header is skipped as a whole. -/
theorem reads_skipRecordHeader (h : HeaderLayout) (a : ℕ) :
    Reads m skipRecordHeader a h.bytes () := by
  have hlen := h.key.length_content
  have hpos := h.key_nonneg
  rw [HeaderLayout.bytes, SizedBytes.bytes, SizedBytes.bytes, List.append_assoc]
  refine (reads_groups h.key.size a).bind fun _ => ?_
  refine (reads_skip (by omega)).bind fun _ => ?_
  refine (reads_groups h.value.size _).bind fun _ => ?_
  exact reads_skip_content h.value _

/-- What is decoded of a record: the range of its bytes, and the lengths of its key and value. -/
def decodedRecord (firstTimestamp : ℤ) (r : RecordLayout) (h : r.bytes.length < 2 ^ 32) :
    Record where
  timestamp := firstTimestamp + r.timestampDelta.value
  data := some r.bytes
  keyLength := r.key.size.value.toNat
  valueOffset := if r.value.size.value ≥ 0 then r.key.size.value.toNat else 0
  valueLength := r.value.size.value.toNat
  size_lt := h

/-- INTERNAL: **a record is decoded to the range of its own bytes.** -/
theorem reads_decodeRecord (firstTimestamp : ℤ) (r : RecordLayout) (h : r.bytes.length < 2 ^ 32)
    (a : ℕ) : Reads m (decodeRecord firstTimestamp) a r.bytes (decodedRecord firstTimestamp r h) := by
  intro hbytes
  have hlayout : r.bytes = r.length.bytes ++ (beInt 1 r.attributes ++
      (r.timestampDelta.bytes ++ (r.offsetDelta.bytes ++ (r.key.size.bytes ++
        (r.key.content ++ (r.value.size.bytes ++ (r.value.content ++
          (r.headerCount.bytes ++ (r.headers.flatMap HeaderLayout.bytes ++ []))))))))) := by
    simp only [RecordLayout.bytes, SizedBytes.bytes, List.append_assoc, List.append_nil]
  have hheaders := reads_times_map (m := m) reads_skipRecordHeader r.headers
  rw [r.length_headers] at hheaders
  refine Reads.of_eq hlayout ?_ hbytes
  refine (reads_current a).bind_nil ?_
  refine (reads_groups r.length a).bind fun _ => ?_
  refine (reads_readInt8 r.attributes _).bind fun _ => ?_
  refine (reads_groups r.timestampDelta _).bind fun _ => ?_
  refine (reads_groups r.offsetDelta _).bind fun _ => ?_
  refine (reads_groups r.key.size _).bind fun _ => ?_
  refine reads_skip_content_bind ?_
  refine (reads_groups r.value.size _).bind fun _ => ?_
  refine reads_skip_content_bind ?_
  refine (reads_groups r.headerCount _).bind fun _ => ?_
  refine (hheaders _).bind fun _ => ?_
  refine (reads_current _).bind_nil ?_
  -- the reader stands right behind the record
  have hstop : ((a + r.length.bytes.length + (beInt 1 r.attributes).length +
      r.timestampDelta.bytes.length + r.offsetDelta.bytes.length +
      r.key.size.bytes.length + r.key.content.length +
      r.value.size.bytes.length + r.value.content.length + r.headerCount.bytes.length +
      (r.headers.flatMap HeaderLayout.bytes).length : ℕ) : ℤ) - a = r.bytes.length := by
    rw [hlayout]
    simp only [List.length_append, List.length_nil]
    omega
  simp only [hstop, toUInt32_of_lt h]
  exact (reads_load hbytes _).bind_pure (by simp only [List.take_length, decodedRecord])

theorem RecordLayout.bytes_ne_nil (r : RecordLayout) : r.bytes ≠ [] := by
  simp only [RecordLayout.bytes, List.append_assoc]
  exact List.append_ne_nil_of_left_ne_nil (Groups.bytes_ne_nil r.length) _

/-! ## Batches laid out field by field -/

/-- The decoded batch has the fields of the header, and its records are those of the batch. -/
structure DecodesLayout (d : BatchLayout) (b : RecordBatch) : Prop where
  baseOffset : b.baseOffset = d.baseOffset
  lastOffset : b.lastOffset = d.baseOffset + d.lastOffsetDelta
  partitionLeaderEpoch : b.partitionLeaderEpoch = d.partitionLeaderEpoch
  magic : b.magic = 2
  crc : b.crc = d.crc
  attributes : b.attributes = d.attributes
  firstTimestamp : b.firstTimestamp = d.firstTimestamp
  maxTimestamp : b.maxTimestamp = d.maxTimestamp
  producerId : b.producerId = d.producerId
  producerEpoch : b.producerEpoch = d.producerEpoch
  baseSequence : b.baseSequence = d.baseSequence
  records : List.Forall₂ (fun r rec => ∃ h, rec = decodedRecord d.firstTimestamp r h)
    d.records b.records

/-- INTERNAL: **a batch is decoded to its fields and its records.** -/
theorem exists_reads_layout {d : BatchLayout} (hlen : ∀ r ∈ d.records, r.bytes.length < 2 ^ 32) :
    ∃ b : RecordBatch, DecodesLayout d b ∧ ∀ a, Reads m decodeRecordBatch a d.bytes b := by
  have hall : ∀ r ∈ d.records, ∃ rec, (∃ h, rec = decodedRecord d.firstTimestamp r h) ∧
      ∀ a, Reads m (decodeRecord d.firstTimestamp) a r.bytes rec := fun r hr =>
    ⟨_, ⟨hlen r hr, rfl⟩, reads_decodeRecord d.firstTimestamp r (hlen r hr)⟩
  obtain ⟨recs, hdata, hrecs⟩ := exists_reads_times hall
  rw [d.length_records] at hrecs
  refine ⟨{
    baseOffset := d.baseOffset
    lastOffset := d.baseOffset + d.lastOffsetDelta
    partitionLeaderEpoch := d.partitionLeaderEpoch
    magic := 2
    crc := d.crc
    attributes := d.attributes
    firstTimestamp := d.firstTimestamp
    maxTimestamp := d.maxTimestamp
    producerId := d.producerId
    producerEpoch := d.producerEpoch
    baseSequence := d.baseSequence
    records := recs }, ⟨rfl, rfl, rfl, rfl, rfl, rfl, rfl, rfl, rfl, rfl, rfl, hdata⟩, ?_⟩
  intro a
  simp only [BatchLayout.bytes, List.append_assoc]
  refine (reads_readInt64 d.baseOffset a).bind fun _ => ?_
  refine (reads_readInt32 d.batchLength.2 _).bind fun _ => ?_
  refine (reads_readInt32 d.partitionLeaderEpoch.2 _).bind fun _ => ?_
  refine (reads_readInt8 ⟨2, by decide⟩ _).bind fun _ => ?_
  rw [if_neg (by decide)]
  refine (reads_readInt32 d.crc.2 _).bind fun _ => ?_
  refine (reads_readInt16 d.attributes.2 _).bind fun _ => ?_
  refine (reads_readInt32 d.lastOffsetDelta.2 _).bind fun _ => ?_
  refine (reads_readInt64 d.firstTimestamp _).bind fun _ => ?_
  refine (reads_readInt64 d.maxTimestamp _).bind fun _ => ?_
  refine (reads_readInt64 d.producerId _).bind fun _ => ?_
  refine (reads_readInt16 d.producerEpoch.2 _).bind fun _ => ?_
  refine (reads_readInt32 d.baseSequence.2 _).bind fun _ => ?_
  refine (reads_readInt32 d.recordCount.2 _).bind fun _ => ?_
  exact (hrecs _).bind_pure rfl

theorem length_le_of_mem_records {d : BatchLayout} {r : RecordLayout} (h : r ∈ d.records) :
    r.bytes.length ≤ d.bytes.length := by
  have hle := length_le_of_mem RecordLayout.bytes h
  rw [BatchLayout.bytes, List.length_append]
  omega

/-! ## Records of Kafka's format -/

/-- The length that stands before a byte string. -/
def varLength : Option Bytes → ℤ
  | none => -1
  | some s => s.length

theorem varBytes_eq (s : Option Bytes) : varBytes s = varint (varLength s) ++ s.getD [] := by
  cases s with
  | none => rw [Option.getD_none, List.append_nil]; rfl
  | some s => rfl

theorem fits_varLength {s : Option Bytes} (h : (varBytes s).length < 2 ^ 31) :
    Fits 4 (varLength s) := by
  cases s with
  | none => decide
  | some s =>
    rw [varBytes_eq, List.length_append, Option.getD_some] at h
    exact fits_four_of_lt (by omega)

/-- The shortest varint of an integer. -/
def groupsOf (v : ℤ) (h : Fits 4 v) : Groups :=
  ⟨varint v, endsWith_varint h, length_uvarint_le 5 _⟩

theorem value_groupsOf {v : ℤ} (h : Fits 4 v) : (groupsOf v h).value = v := by
  have hlt := zigzag_lt_of_fits h
  show ofZigzag 4 (ofGroups 4 0 (uvarint 5 (zigzag v))) = v
  rw [ofGroups_uvarint (by norm_num) (by omega) (by omega), pow_zero, Nat.mul_one,
    ofZigzag_zigzag h]

/-- A byte string that may be missing, behind its length. -/
def sizedBytesOf (s : Option Bytes) (h : (varBytes s).length < 2 ^ 31) : SizedBytes where
  size := groupsOf (varLength s) (fits_varLength h)
  content := s.getD []
  length_content := by
    rw [value_groupsOf]
    cases s with
    | none => rfl
    | some s => exact (Int.toNat_natCast s.length).symm

theorem size_sizedBytesOf {s : Option Bytes} (h : (varBytes s).length < 2 ^ 31) :
    (sizedBytesOf s h).size.value = varLength s :=
  value_groupsOf (fits_varLength h)

theorem bytes_sizedBytesOf {s : Option Bytes} (h : (varBytes s).length < 2 ^ 31) :
    (sizedBytesOf s h).bytes = varBytes s :=
  (varBytes_eq s).symm

theorem exists_headers {hs : List (Bytes × Option Bytes)}
    (hlen : (hs.flatMap WireRecord.headerBytes).length < 2 ^ 31) :
    ∃ ls : List HeaderLayout, ls.length = hs.length ∧
      ls.flatMap HeaderLayout.bytes = hs.flatMap WireRecord.headerBytes := by
  induction hs with
  | nil => exact ⟨[], rfl, rfl⟩
  | cons h hs ih =>
    rw [List.flatMap_cons, List.length_append] at hlen
    obtain ⟨ls, hcount, hbytes⟩ := ih (by omega)
    have hfields : (WireRecord.headerBytes h).length =
        (varBytes (some h.1)).length + (varBytes h.2).length := List.length_append
    have hkey : (varBytes (some h.1)).length < 2 ^ 31 := by omega
    have hvalue : (varBytes h.2).length < 2 ^ 31 := by omega
    refine ⟨⟨sizedBytesOf (some h.1) hkey, sizedBytesOf h.2 hvalue, ?_⟩ :: ls, ?_, ?_⟩
    · rw [size_sizedBytesOf]
      exact Int.natCast_nonneg h.1.length
    · rw [List.length_cons, List.length_cons, hcount]
    · rw [List.flatMap_cons, List.flatMap_cons, hbytes, HeaderLayout.bytes, bytes_sizedBytesOf,
        bytes_sizedBytesOf]
      rfl

theorem length_record_bytes (r : WireRecord) :
    r.bytes.length = (varint r.body.length).length + r.body.length :=
  List.length_append

theorem length_record_body (r : WireRecord) :
    r.body.length = 1 + (varlong r.timestampDelta).length + (varint r.offsetDelta).length +
      (varBytes r.key).length + (varBytes r.value).length +
      ((varint r.headers.length).length + (r.headers.flatMap WireRecord.headerBytes).length) := by
  simp only [WireRecord.body, varArray, List.length_append, length_beInt]

theorem length_headers_le (r : WireRecord) :
    r.headers.length ≤ (r.headers.flatMap WireRecord.headerBytes).length :=
  length_le_length_flatMap fun h _ =>
    List.append_ne_nil_of_left_ne_nil (varBytes_ne_nil (some h.1)) _

/-- INTERNAL: **a record of Kafka's format is laid out field by field.** -/
theorem exists_layout {r : WireRecord} (hlen : r.bytes.length < 2 ^ 31) (hshort : r.Short) :
    ∃ l : RecordLayout, l.bytes = r.bytes := by
  have hbody := length_record_bytes r
  have hfields := length_record_body r
  have hcount := length_headers_le r
  have hheaderBytes : (r.headers.flatMap WireRecord.headerBytes).length < 2 ^ 31 := by omega
  obtain ⟨ls, hls, hheaders⟩ := exists_headers hheaderBytes
  have hlength : Fits 4 (r.body.length : ℤ) := fits_four_of_lt (by omega)
  have hheaderCount : Fits 4 (r.headers.length : ℤ) := fits_four_of_lt (by omega)
  have hkey : (varBytes r.key).length < 2 ^ 31 := by omega
  have hvalue : (varBytes r.value).length < 2 ^ 31 := by omega
  refine ⟨{
    length := groupsOf r.body.length hlength
    attributes := r.attributes
    timestampDelta := ⟨varlong r.timestampDelta, endsWith_varlong r.timestampDelta.2, hshort⟩
    offsetDelta := groupsOf r.offsetDelta r.offsetDelta.2
    key := sizedBytesOf r.key hkey
    value := sizedBytesOf r.value hvalue
    headerCount := groupsOf r.headers.length hheaderCount
    headers := ls
    length_headers := ?_ }, ?_⟩
  · rw [value_groupsOf, hls, Int.toNat_natCast]
  · simp only [RecordLayout.bytes, bytes_sizedBytesOf, hheaders, WireRecord.bytes, WireRecord.body,
      varArray, groupsOf, List.append_assoc]

/-- INTERNAL: a record of Kafka's format is decoded to the range of its own bytes. -/
theorem exists_reads_decodeRecord (firstTimestamp : ℤ) {r : WireRecord}
    (hlen : r.bytes.length < 2 ^ 31) (hshort : r.Short) :
    ∃ rec : Record, rec.data = some r.bytes ∧
      ∀ a, Reads m (decodeRecord firstTimestamp) a r.bytes rec := by
  obtain ⟨l, hl⟩ := exists_layout hlen hshort
  have hlt : l.bytes.length < 2 ^ 32 := by
    rw [hl]
    omega
  rw [← hl]
  exact ⟨_, rfl, reads_decodeRecord firstTimestamp l hlt⟩

/-- INTERNAL: a record has an outcome if its timestamp delta has at most five groups. -/
theorem exists_readsIf_decodeRecord (firstTimestamp : ℤ) {r : WireRecord}
    (hlen : r.bytes.length < 2 ^ 31) :
    ∃ rec : Record, rec.data = some r.bytes ∧
      ∀ a, ReadsIf m r.Short (decodeRecord firstTimestamp) a r.bytes rec := by
  by_cases hshort : r.Short
  · obtain ⟨rec, hdata, hreads⟩ := exists_reads_decodeRecord (m := m) firstTimestamp hlen hshort
    exact ⟨rec, hdata, fun a => (hreads a).readsIf hshort⟩
  have hlayout : r.bytes = varint r.body.length ++ (beInt 1 r.attributes ++
      (varlong r.timestampDelta ++ (varint r.offsetDelta ++ (varBytes r.key ++
        (varBytes r.value ++ varArray WireRecord.headerBytes r.headers))))) := by
    rw [WireRecord.bytes]
    nth_rewrite 2 [WireRecord.body]
    simp only [List.append_assoc]
  have hlength : Fits 4 (r.body.length : ℤ) := by
    have hbody := length_record_bytes r
    exact fits_four_of_lt (by omega)
  refine ⟨{ data := some r.bytes, size_lt := by rw [Option.getD_some]; omega }, rfl, fun a => ?_⟩
  refine ReadsIf.of_eq hlayout ((reads_current a).bind_nil_if ?_)
  refine (reads_varint hlength a).bind_if fun _ => ?_
  refine (reads_readInt8 r.attributes _).bind_if fun _ => ?_
  exact (readsIf_varint (endsWith_varlong r.timestampDelta.2) _).bind fun h => absurd h hshort

/-! ## Batches of Kafka's format -/

/-- The decoded batch has the header fields of the one on the wire, and its records are the
ranges of their bytes. -/
structure Decodes (w : WireBatch) (b : RecordBatch) : Prop where
  baseOffset : b.baseOffset = w.baseOffset
  lastOffset : b.lastOffset = w.baseOffset + w.lastOffsetDelta
  partitionLeaderEpoch : b.partitionLeaderEpoch = w.partitionLeaderEpoch
  magic : b.magic = 2
  crc : b.crc = w.crc
  attributes : b.attributes = w.attributes
  firstTimestamp : b.firstTimestamp = w.firstTimestamp
  maxTimestamp : b.maxTimestamp = w.maxTimestamp
  producerId : b.producerId = w.producerId
  producerEpoch : b.producerEpoch = w.producerEpoch
  baseSequence : b.baseSequence = w.baseSequence
  records : b.records.map Record.data = w.records.map fun r => some r.bytes

theorem WireRecord.bytes_ne_nil (r : WireRecord) : r.bytes ≠ [] :=
  List.append_ne_nil_of_left_ne_nil (varint_ne_nil r.body.length) _

/-- INTERNAL: **a batch of Kafka's format is decoded to its fields and its records**, if each of
these has an outcome. -/
theorem exists_readsIf_decodeRecordBatch {w : WireBatch} (hlen : w.bytes.length < 2 ^ 31) :
    ∃ b : RecordBatch, Decodes w b ∧
      ∀ a, ReadsIf m (∀ r ∈ w.records, r.Short) decodeRecordBatch a w.bytes b := by
  have hbytes : w.bytes.length = 61 + (w.records.flatMap WireRecord.bytes).length := by
    simp only [WireBatch.bytes, WireBatch.body, wireBytes, wireArray, List.length_append,
      length_beInt]
    omega
  have hbody : w.body.length ≤ w.bytes.length := by
    simp only [WireBatch.bytes, wireBytes, List.length_append]
    omega
  have hcount : w.records.length ≤ (w.records.flatMap WireRecord.bytes).length :=
    length_le_length_flatMap fun r _ => WireRecord.bytes_ne_nil r
  have hall : ∀ r ∈ w.records, ∃ rec : Record, rec.data = some r.bytes ∧
      ∀ a, ReadsIf m r.Short (decodeRecord w.firstTimestamp) a r.bytes rec := by
    intro r hr
    have hle := length_le_of_mem WireRecord.bytes hr
    exact exists_readsIf_decodeRecord _ (by omega)
  obtain ⟨recs, hrecs⟩ := exists_forall₂ hall
  have hloop := readsIf_times (hrecs.imp fun _ _ h => h.2)
  have hlayout : w.bytes = beInt 8 w.baseOffset ++ (beInt 4 w.body.length ++
      (beInt 4 w.partitionLeaderEpoch ++ (beInt 1 2 ++ (beInt 4 w.crc ++ (beInt 2 w.attributes ++
        (beInt 4 w.lastOffsetDelta ++ (beInt 8 w.firstTimestamp ++ (beInt 8 w.maxTimestamp ++
          (beInt 8 w.producerId ++ (beInt 2 w.producerEpoch ++ (beInt 4 w.baseSequence ++
            (beInt 4 w.records.length ++ w.records.flatMap WireRecord.bytes)))))))))))) := by
    rw [WireBatch.bytes, wireBytes]
    nth_rewrite 2 [WireBatch.body]
    simp only [wireArray, List.append_assoc]
  refine ⟨{
    baseOffset := w.baseOffset
    lastOffset := w.baseOffset + w.lastOffsetDelta
    partitionLeaderEpoch := w.partitionLeaderEpoch
    magic := 2
    crc := w.crc
    attributes := w.attributes
    firstTimestamp := w.firstTimestamp
    maxTimestamp := w.maxTimestamp
    producerId := w.producerId
    producerEpoch := w.producerEpoch
    baseSequence := w.baseSequence
    records := recs }, ⟨rfl, rfl, rfl, rfl, rfl, rfl, rfl, rfl, rfl, rfl, rfl,
      map_eq_of_forall₂ (hrecs.imp fun _ _ h => h.1)⟩, fun a => ReadsIf.of_eq hlayout ?_⟩
  refine (reads_readInt64 w.baseOffset a).bind_if fun _ => ?_
  refine (reads_readInt32 (fits_four_of_lt (by omega)) _).bind_if fun _ => ?_
  refine (reads_readInt32 w.partitionLeaderEpoch.2 _).bind_if fun _ => ?_
  refine (reads_readInt8 ⟨2, by decide⟩ _).bind_if fun _ => ?_
  rw [if_neg (by decide)]
  refine (reads_readInt32 w.crc.2 _).bind_if fun _ => ?_
  refine (reads_readInt16 w.attributes.2 _).bind_if fun _ => ?_
  refine (reads_readInt32 w.lastOffsetDelta.2 _).bind_if fun _ => ?_
  refine (reads_readInt64 w.firstTimestamp _).bind_if fun _ => ?_
  refine (reads_readInt64 w.maxTimestamp _).bind_if fun _ => ?_
  refine (reads_readInt64 w.producerId _).bind_if fun _ => ?_
  refine (reads_readInt16 w.producerEpoch.2 _).bind_if fun _ => ?_
  refine (reads_readInt32 w.baseSequence.2 _).bind_if fun _ => ?_
  refine (reads_readInt32 (fits_four_of_lt (by omega)) _).bind_if fun _ => ?_
  rw [Int.toNat_natCast]
  exact (hloop _).bind_pure rfl

theorem intOfBe_singleton_ne_two {b : UInt8} (h : b ≠ 2) : intOfBe [b] ≠ 2 := by
  have hall : ∀ i : Fin 256, intOfBe [UInt8.ofNat i.val] = 2 → i.val = 2 := by decide +kernel
  intro htwo
  have hnat := hall ⟨b.toNat, b.toNat_lt⟩ (by rw [UInt8.ofNat_toNat]; exact htwo)
  exact h (UInt8.toNat_inj.mp hnat)

/-- INTERNAL: of the data before magic 2 only the first fields are read, and no record. -/
theorem exists_reads_messageSet {s : Bytes} (hlen : 17 ≤ s.length) (hmagic : s[16]? ≠ some 2) :
    ∃ b : RecordBatch, b.records = [] ∧ ∀ a, Reads m decodeRecordBatch a (s.take 17) b := by
  obtain ⟨c, rest, hc⟩ : ∃ c rest, s.drop 16 = c :: rest :=
    List.exists_cons_of_ne_nil (List.length_pos_iff.mp (by rw [List.length_drop]; omega))
  have hne : c ≠ 2 := by
    intro h
    have hget : (s.drop 16)[0]? = some c := by rw [hc]; rfl
    rw [List.getElem?_drop, h] at hget
    exact hmagic hget
  refine ⟨{ baseOffset := intOfBe (s.take 8)
            partitionLeaderEpoch := intOfBe ((s.drop 12).take 4)
            magic := intOfBe [c] }, rfl, ?_⟩
  intro a
  have hfields : s.take 17 =
      s.take 8 ++ ((s.drop 8).take 4 ++ ((s.drop 12).take 4 ++ ([c] ++ []))) := by
    have hlast : (s.drop 16).take 1 = [c] := by rw [hc]; rfl
    rw [show 17 = 8 + (4 + (4 + 1)) from rfl, List.take_add, List.take_add, List.take_add,
      List.drop_drop, List.drop_drop, List.append_nil, hlast]
  have hword : ∀ p w : ℕ, p + w ≤ 17 → ((s.drop p).take w).length = w := by
    intro p w hpw
    rw [List.length_take, List.length_drop]
    omega
  refine Reads.of_eq hfields ?_
  refine (reads_word_raw (hword 0 8 (by omega)) a).bind fun _ => ?_
  refine (reads_word_raw (hword 8 4 (by omega)) _).bind fun _ => ?_
  refine (reads_word_raw (hword 12 4 (by omega)) _).bind fun _ => ?_
  refine (reads_word_raw (show [c].length = 1 from rfl) _).bind fun _ => ?_
  rw [if_pos (intOfBe_singleton_ne_two hne)]
  exact Reads.pure _ _

/-- INTERNAL: the records are part of the data. -/
theorem length_flatMap_records_le (d : RecordData) :
    (d.records.flatMap WireRecord.bytes).length ≤ d.bytes.length := by
  cases d with
  | batches first more =>
    simp only [RecordData.records, RecordData.bytes, WireBatch.bytes, WireBatch.body, wireBytes,
      wireArray, List.length_append]
    omega
  | messageSet s hheader hmagic => exact Nat.zero_le _

theorem length_record_le {d : RecordData} {r : WireRecord} (h : r ∈ d.records) :
    r.bytes.length ≤ d.bytes.length :=
  le_trans (length_le_of_mem WireRecord.bytes h) (length_flatMap_records_le d)

theorem length_records_le (d : RecordData) : d.records.length ≤ d.bytes.length :=
  le_trans (length_le_length_flatMap fun r _ => WireRecord.bytes_ne_nil r)
    (length_flatMap_records_le d)

/-- INTERNAL: **the record data of a partition is decoded from its front.** -/
theorem exists_readsIf_recordData {d : RecordData} (hlen : d.bytes.length < 2 ^ 31) :
    ∃ (front back : Bytes) (b : RecordBatch), d.bytes = front ++ back ∧
      b.records.map Record.data = (d.records.map fun r => some r.bytes) ∧
      ∀ a, ReadsIf m d.Short decodeRecordBatch a front b := by
  cases d with
  | batches first more =>
    rw [RecordData.bytes, List.length_append] at hlen
    obtain ⟨b, hb, hreads⟩ := exists_readsIf_decodeRecordBatch (m := m) (w := first) (by omega)
    exact ⟨first.bytes, more, b, rfl, hb.records, hreads⟩
  | messageSet s hheader hmagic =>
    obtain ⟨b, hb, hreads⟩ := exists_reads_messageSet (m := m) hheader hmagic
    refine ⟨s.take 17, s.drop 17, b, (List.take_append_drop 17 s).symm, ?_, fun a => ?_⟩
    · rw [hb]
      rfl
    · exact (hreads a).readsIf fun r hr => absurd hr List.not_mem_nil

end StrikeMQ.Analysis.RecordDecoding
