import StrikeMQ.Analysis.RecordDecoding

/-!
# The key and the value of a decoded record

A decoded record points at its first byte, which is the first one of its length. The decoder counts
the offsets of the key and of the value as if the record began with its key: the key is looked for
in front, and the value right behind as many bytes. So a record shows its own key and value only
where its bytes happen to repeat them there.
-/

set_option autoImplicit false

namespace StrikeMQ.Analysis.RecordAccess

open StrikeMQ.Lib StrikeMQ.Model StrikeMQ.Model.KafkaDecoder StrikeMQ.Interface
open StrikeMQ.Analysis.WireReading StrikeMQ.Analysis.RecordDecoding

variable (firstTimestamp : ℤ) (l : RecordLayout) (h : l.bytes.length < 2 ^ 32)

/-- INTERNAL: the key of a decoded record is the front of the record. -/
theorem key_decodedRecord :
    (decodedRecord firstTimestamp l h).key = l.bytes.take l.key.content.length := by
  rw [Record.key, decodedRecord]
  dsimp only
  rw [← l.key.length_content]
  split
  · next hzero => rw [hzero, List.take_zero]
  · rfl

/-- INTERNAL: its value is what stands right behind that. -/
theorem value_decodedRecord :
    (decodedRecord firstTimestamp l h).value =
      (l.bytes.drop l.key.content.length).take l.value.content.length := by
  rw [Record.value, decodedRecord]
  dsimp only
  rw [← l.key.length_content, ← l.value.length_content]
  by_cases hpos : l.value.size.value ≥ 0
  · rw [if_pos hpos]
    rfl
  · -- a value that is missing has no bytes, wherever they are looked for
    have hnone : l.value.content.length = 0 := by
      rw [l.value.length_content]
      omega
    rw [hnone, slice, List.take_zero, List.take_zero]

/-- A record shows its own key and value. -/
def ShowsOwn (l : RecordLayout) (rec : Record) : Prop :=
  rec.key = l.key.content ∧ rec.value = l.value.content

/-- The bytes of a record start with its key, and behind as many bytes its value follows. -/
def Repeats (l : RecordLayout) : Prop :=
  l.key.content <+: l.bytes ∧ l.value.content <+: l.bytes.drop l.key.content.length

theorem showsOwn_decodedRecord_iff : ShowsOwn l (decodedRecord firstTimestamp l h) ↔ Repeats l := by
  rw [ShowsOwn, Repeats, key_decodedRecord, value_decodedRecord, List.prefix_iff_eq_take,
    List.prefix_iff_eq_take]
  exact and_congr eq_comm eq_comm

/-- PROPERTY: **a decoded record shows its own key and value if and only if its bytes repeat them
at its beginning.** For every batch of magic 2 whose records are laid out field by field, and each
record of it; a key or value that is missing counts as empty. A record with neither always does.
SOURCE: protocol/kafka_codec.cpp:52-65, core/types.h:45-63 -/
theorem records_show_own_iff (d : BatchLayout) (hlen : d.bytes.length < 2 ^ 32) {m : Memory} {a : ℕ}
    (hbytes : m.HoldsAt a d.bytes) :
    ∃ b, decodeRecordBatch.run m { data := a, length := d.bytes.length } =
        some (b, { data := a, length := d.bytes.length, pos := d.bytes.length }) ∧
      List.Forall₂ (fun l rec => ShowsOwn l rec ↔ Repeats l) d.records b.records := by
  obtain ⟨b, hb, hreads⟩ := exists_reads_layout (m := m) (d := d) fun r hr =>
    lt_of_le_of_lt (length_le_of_mem_records hr) hlen
  refine ⟨b, ?_, hb.records.imp ?_⟩
  · rw [hreads a hbytes { data := a, length := d.bytes.length } rfl, Nat.zero_add]
  · rintro l _ ⟨hl, rfl⟩
    exact showsOwn_decodedRecord_iff d.firstTimestamp l hl

/-- A number below 64 in one group. -/
def oneGroup (b : UInt8) (h : lastGroup b = true) : Groups :=
  ⟨[b], EndsWith.last h, by simp⟩

/-- A batch of one record whose key is the byte of its length, and whose value is a zero byte as its
attributes are. -/
def repeating : BatchLayout where
  baseOffset := wordOf 8 0
  batchLength := wordOf 4 58
  partitionLeaderEpoch := wordOf 4 (-1)
  crc := wordOf 4 0
  attributes := wordOf 2 0
  lastOffsetDelta := wordOf 4 0
  firstTimestamp := wordOf 8 0
  maxTimestamp := wordOf 8 0
  producerId := wordOf 8 (-1)
  producerEpoch := wordOf 2 (-1)
  baseSequence := wordOf 4 (-1)
  recordCount := wordOf 4 1
  records := [{
    length := oneGroup 0x10 rfl
    attributes := wordOf 1 0
    timestampDelta := oneGroup 0x00 rfl
    offsetDelta := oneGroup 0x00 rfl
    key := ⟨oneGroup 0x02 rfl, [0x10], by decide⟩
    value := ⟨oneGroup 0x02 rfl, [0x00], by decide⟩
    headerCount := oneGroup 0x00 rfl
    headers := []
    length_headers := by decide }]
  length_records := by decide

/-- Each record of such a batch repeats its key and value, and shows them. -/
theorem records_show_own_iff_repeating :
    ∃ b, decodeRecordBatch.run (Memory.ofBytes repeating.bytes)
          { length := repeating.bytes.length } =
        some (b, { length := repeating.bytes.length, pos := repeating.bytes.length }) ∧
      List.Forall₂ (fun l rec => Repeats l ∧ ShowsOwn l rec) repeating.records b.records := by
  have hrepeats : ∀ l ∈ repeating.records, Repeats l := by
    intro l hl
    rw [List.mem_singleton.mp hl]
    exact ⟨by decide, by decide⟩
  obtain ⟨b, hrun, hiff⟩ := records_show_own_iff repeating (by decide)
    (Memory.holdsAt_zero (by decide) (Memory.holds_ofBytes repeating.bytes))
  refine ⟨b, hrun, ((List.forall₂_and_left _ _).mpr ⟨hrepeats, hiff⟩).imp ?_⟩
  rintro l rec ⟨hl, hown⟩
  exact ⟨hl, hown.mpr hl⟩

/-- The keys and values that the records of a batch show. -/
def shown (batch : Bytes) : Option (List (Bytes × Bytes)) :=
  (decodeRecordBatch.run (Memory.ofBytes batch) { length := batch.length }).map fun r =>
    r.1.records.map fun rec => (rec.key, rec.value)

/-- A batch of one record. -/
def oneRecord (r : WireRecord) : WireBatch where
  records := [r]

/-- A record shows the bytes of its length and of its attributes in place of its key and value. -/
theorem record_shows_length_as_key :
    let batch := (oneRecord { key := some (ascii "k"), value := some (ascii "v") }).bytes
    shown batch = some [([0x10], [0x00])] ∧ shown batch ≠ some [(ascii "k", ascii "v")] := by
  decide +kernel

end StrikeMQ.Analysis.RecordAccess
