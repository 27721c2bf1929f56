import StrikeMQ.Lib.Runs
import StrikeMQ.Interface.StoredBatch

/-!
# What `serialize_batch` writes

The record loop keeps a record only while the buffer stays below its capacity, so the
output is the 61-byte header, with the length patched in, followed by the raw bytes of a
sublist of the records; it is always shorter than the buffer. Nothing is left out exactly
when header and records together stay below the buffer's 65536 bytes, while the header
counts and the offsets `append` takes always speak of all records.
-/

set_option autoImplicit false

namespace StrikeMQ.Analysis.BatchSerialization

open StrikeMQ.Lib StrikeMQ.Model StrikeMQ.Interface
open StrikeMQ.Model.PartitionLog

theorem length_serializeHeader (b : RecordBatch) : (serializeHeader b).length = 61 := by
  simp [serializeHeader]

/-- INTERNAL: one round of the record loop keeps the record, staying below the capacity,
or leaves the buffer alone. -/
theorem serializeRecord_cases {cap : ℕ} (hcap : cap < 2 ^ 32) {buf out : Bytes} {r : Record}
    (h : serializeRecord cap buf r = some out) :
    (out = buf ++ r.raw ∧ out.length < cap) ∨ out = buf := by
  unfold serializeRecord at h
  split at h
  · rename_i hguard
    split at h
    · rename_i hfits
      left
      obtain ⟨-, -, hlt⟩ := hguard
      rw [toUInt32_of_lt (by omega)] at hlt
      have hout : out = buf ++ r.raw := (Option.some.inj h).symm
      refine ⟨hout, ?_⟩
      rw [hout, List.length_append]
      exact hlt
    · cases h
  · exact Or.inr (Option.some.inj h).symm

/-- INTERNAL: the record loop appends the raw bytes of a sublist of the records and never
fills the buffer. The induction is on the records still to come. -/
theorem foldlM_serializeRecord {cap : ℕ} (hcap : cap < 2 ^ 32) {rs : List Record}
    {buf out : Bytes} (hbuf : buf.length < cap)
    (h : rs.foldlM (serializeRecord cap) buf = some out) :
    out.length < cap ∧
      ∃ kept : List Record, kept.Sublist rs ∧ out = buf ++ (kept.map Record.raw).flatten := by
  induction rs generalizing buf with
  | nil =>
    have hout : buf = out := Option.some.inj h
    subst hout
    exact ⟨hbuf, [], List.Sublist.refl _, by simp⟩
  | cons r rs ih =>
    obtain ⟨mid, hmid, hrest⟩ := foldlM_cons_eq_some_iff.mp h
    rcases serializeRecord_cases hcap hmid with ⟨hkeep, hlt⟩ | hskip
    · obtain ⟨hlen, kept, hsub, hout⟩ := ih hlt hrest
      refine ⟨hlen, r :: kept, hsub.cons_cons r, ?_⟩
      rw [hout, hkeep]
      simp
    · subst hskip
      obtain ⟨hlen, kept, hsub, hout⟩ := ih hbuf hrest
      exact ⟨hlen, kept, hsub.cons r, hout⟩

/-- INTERNAL: while header and records stay below the capacity, the loop keeps every
record that has bytes. -/
theorem foldlM_serializeRecord_of_fits {cap : ℕ} (hcap : cap < 2 ^ 32) (rs : List Record)
    (buf : Bytes) (hdata : ∀ r ∈ rs, r.data.isSome ∧ 0 < r.totalSize)
    (hfits : buf.length + (rs.map Record.totalSize).sum < cap) :
    rs.foldlM (serializeRecord cap) buf = some (buf ++ (rs.map Record.raw).flatten) := by
  induction rs generalizing buf with
  | nil => simp
  | cons r rs ih =>
    obtain ⟨hsome, hpos⟩ := hdata r List.mem_cons_self
    simp only [List.map_cons, List.sum_cons] at hfits
    have hstep : serializeRecord cap buf r = some (buf ++ r.raw) := by
      unfold serializeRecord
      rw [if_pos ⟨hsome, hpos, by rw [toUInt32_of_lt (by omega)]; omega⟩, if_pos (by omega)]
    have hlen : (buf ++ r.raw).length = buf.length + r.totalSize := by
      rw [List.length_append]
      rfl
    rw [List.foldlM_cons, hstep, Option.bind_eq_bind, Option.bind_some,
      ih (buf ++ r.raw) (fun r' hr' => hdata r' (List.mem_cons_of_mem _ hr')) (by omega)]
    simp

theorem length_patchBatchLength {buf : Bytes} (h : 12 ≤ buf.length) :
    (patchBatchLength buf).length = buf.length := by
  simp [patchBatchLength]
  omega

/-- INTERNAL: patching the length changes no other field of a buffer that starts with a
header. -/
theorem slice_patchBatchLength {buf : Bytes} (h : 12 ≤ buf.length) (p n : ℕ)
    (hp : p + n ≤ 8 ∨ 12 ≤ p) : slice (patchBatchLength buf) p n = slice buf p n := by
  have htake : (buf.take 8).length = 8 := by
    rw [List.length_take]
    omega
  unfold patchBatchLength
  rw [List.append_assoc]
  rcases hp with hp | hp
  · rw [slice_append_left _ _ _ _ (by omega)]
    conv_rhs => rw [← List.take_append_drop 8 buf]
    rw [slice_append_left _ _ _ _ (by omega)]
  · rw [slice_append_right _ _ _ _ (by omega), htake,
      slice_append_right _ _ _ _ (by rw [length_beInt]; omega), length_beInt]
    unfold slice
    rw [List.drop_drop]
    congr 2
    omega

theorem slice_patchBatchLength_length {buf : Bytes} (h : 12 ≤ buf.length) :
    slice (patchBatchLength buf) 8 4 = beInt 4 (buf.length - 12 : ℕ) := by
  unfold patchBatchLength
  rw [List.append_assoc]
  exact slice_middle _ _ _ _ _ (by rw [List.length_take]; omega) (by simp)

theorem patchBatchLength_append {front mid : Bytes} (rest : Bytes) (hfront : front.length = 8)
    (hmid : mid.length = 4) :
    patchBatchLength (front ++ (mid ++ rest)) = front ++ (beInt 4 rest.length ++ rest) := by
  have hlen : (front ++ (mid ++ rest)).length - 12 = rest.length := by
    simp only [List.length_append]
    omega
  have hdrop : (front ++ (mid ++ rest)).drop 12 = rest := by
    rw [← List.append_assoc]
    exact List.drop_left' (by rw [List.length_append]; omega)
  rw [patchBatchLength, hlen, hdrop, List.take_left' hfront, List.append_assoc]

/-- INTERNAL: the three header fields the reader and the consumer look at. -/
theorem slice_serializeHeader (b : RecordBatch) (body : Bytes) :
    slice (serializeHeader b ++ body) 0 8 = beInt 8 b.baseOffset ∧
    slice (serializeHeader b ++ body) 23 4 = beInt 4 (toInt32 b.records.length - 1) ∧
    slice (serializeHeader b ++ body) 57 4 = beInt 4 (toInt32 b.records.length) := by
  have hin (p n : ℕ) (h : p + n ≤ 61) :
      slice (serializeHeader b ++ body) p n = slice (serializeHeader b) p n :=
    slice_append_left _ _ _ _ (by rw [length_serializeHeader]; exact h)
  rw [hin 0 8 (by omega), hin 23 4 (by omega), hin 57 4 (by omega)]
  have hself (v : ℤ) (w : ℕ) : slice (beInt w v) 0 w = beInt w v := by
    simpa using slice_self (beInt w v)
  simp only [serializeHeader, List.append_assoc]
  -- skip the fields before the one looked at, drop the ones behind it
  refine ⟨?_, ?_, ?_⟩
  · simp (disch := simp) only [slice_append_left, hself]
  · simp (disch := simp) only [slice_append_right, length_beInt, Nat.reduceSub,
      slice_append_left, hself]
  · simp (disch := simp) only [slice_append_right, length_beInt, Nat.reduceSub, hself]

/-- INTERNAL: the fields of a header followed by a body, once the length is patched in. -/
theorem patched_fields (b : RecordBatch) (body : Bytes) (hlt : 61 + body.length < 65536) :
    (patchBatchLength (serializeHeader b ++ body)).length = 61 + body.length ∧
    intOfBe (slice (patchBatchLength (serializeHeader b ++ body)) 0 8) =
      toInt64 b.baseOffset ∧
    intOfBe (slice (patchBatchLength (serializeHeader b ++ body)) 8 4) =
      (61 + body.length - 12 : ℕ) ∧
    intOfBe (slice (patchBatchLength (serializeHeader b ++ body)) 23 4) =
      toInt32 (toInt32 b.records.length - 1) ∧
    intOfBe (slice (patchBatchLength (serializeHeader b ++ body)) 57 4) =
      toInt32 b.records.length ∧
    (patchBatchLength (serializeHeader b ++ body)).drop 61 = body := by
  have hlen : (serializeHeader b ++ body).length = 61 + body.length := by
    rw [List.length_append, length_serializeHeader]
  obtain ⟨hbase, hdelta, hcount⟩ := slice_serializeHeader b body
  refine ⟨by rw [length_patchBatchLength (by omega), hlen], ?_, ?_, ?_, ?_, ?_⟩
  · rw [slice_patchBatchLength (by omega) _ _ (by omega), hbase, intOfBe_beInt_eight]
  · rw [slice_patchBatchLength_length (by omega), intOfBe_beInt_four, hlen,
      toInt32_of_fits (by omega) (by omega)]
  · rw [slice_patchBatchLength (by omega) _ _ (by omega), hdelta, intOfBe_beInt_four]
  · rw [slice_patchBatchLength (by omega) _ _ (by omega), hcount, intOfBe_beInt_four]
    unfold toInt32
    rw [Int.bmod_bmod]
  · unfold patchBatchLength
    have hdrop : (serializeHeader b ++ body).drop 61 = body := by
      rw [List.drop_append_of_le_length (by rw [length_serializeHeader]),
        List.drop_eq_nil_of_le (by rw [length_serializeHeader]), List.nil_append]
    rw [List.drop_append, List.drop_eq_nil_of_le (by simp), List.nil_append,
      List.drop_drop]
    have hpos : 12 + (61 - (List.take 8 (serializeHeader b ++ body) ++
        beInt 4 ((serializeHeader b ++ body).length - 12 : ℕ)).length) = 61 := by
      rw [List.length_append, List.length_take, length_beInt]
      omega
    rw [hpos, hdrop]

/-- INTERNAL: **what is stored**: header fields, length bounds and, behind the header, the
raw bytes of a sublist of the records. -/
theorem serializeBatch_spec {b : RecordBatch} {out : Bytes}
    (h : serializeBatch b appendBufferSize = some out) :
    61 ≤ out.length ∧ out.length < 65536 ∧
    intOfBe (slice out 0 8) = toInt64 b.baseOffset ∧
    intOfBe (slice out 8 4) = (out.length - 12 : ℕ) ∧
    intOfBe (slice out 23 4) = toInt32 (toInt32 b.records.length - 1) ∧
    intOfBe (slice out 57 4) = toInt32 b.records.length ∧
    ∃ kept : List Record, kept.Sublist b.records ∧
      out.drop 61 = (kept.map Record.raw).flatten := by
  unfold serializeBatch at h
  simp only [Option.bind_eq_bind, Option.bind_eq_some_iff, Option.pure_def,
    Option.some.injEq] at h
  obtain ⟨buf, hloop, hout⟩ := h
  have hcap : appendBufferSize = 65536 := rfl
  rw [hcap] at hloop
  obtain ⟨hlt, kept, hsub, hbuf⟩ := foldlM_serializeRecord (by norm_num)
    (by rw [length_serializeHeader]; norm_num) hloop
  rw [hbuf, List.length_append, length_serializeHeader] at hlt
  rw [hbuf] at hout
  obtain ⟨hlen, hbase, hbl, hdelta, hcount, hbody⟩ := patched_fields b _ hlt
  rw [hout] at hlen hbase hbl hdelta hcount hbody
  rw [hlen]
  exact ⟨by omega, hlt, hbase, hbl, hdelta, hcount, kept, hsub, hbody⟩

/-- INTERNAL: the stored form of a batch that serializes. -/
def storedBatch {b : RecordBatch} {out : Bytes}
    (h : serializeBatch b appendBufferSize = some out) : StoredBatch where
  base := b.baseOffset
  count := b.records.length
  bytes := out
  header_le := (serializeBatch_spec h).1
  length_lt := (serializeBatch_spec h).2.1
  base_eq := (serializeBatch_spec h).2.2.1
  batchLength_eq := (serializeBatch_spec h).2.2.2.1
  lastOffsetDelta_eq := (serializeBatch_spec h).2.2.2.2.1
  recordCount_eq := (serializeBatch_spec h).2.2.2.2.2.1

/-! ## No record dropped -/

theorem map_data_assignOffsets (base : ℤ) (b : RecordBatch) :
    (assignOffsets base b).records.map Record.data = b.records.map Record.data := by
  apply List.ext_getElem?
  intro i
  simp only [assignOffsets, List.getElem?_map, List.getElem?_mapIdx, Option.map_map]
  rfl

theorem map_assignOffsets {α : Type} (f : Option Bytes → α) (base : ℤ) (b : RecordBatch) :
    (assignOffsets base b).records.map (fun r => f r.data) =
      b.records.map fun r => f r.data := by
  have h := congrArg (List.map f) (map_data_assignOffsets base b)
  simpa only [List.map_map, Function.comp_def] using h

@[simp]
theorem length_assignOffsets (base : ℤ) (b : RecordBatch) :
    (assignOffsets base b).records.length = b.records.length := by
  simp [assignOffsets]

theorem nextOffset_commit (log : PartitionLog) (base : ℤ) (b : RecordBatch) (buf : Bytes) :
    (log.commit (assignOffsets base b) buf).nextOffset = base + b.records.length := by
  simp [commit, assignOffsets]

/-- INTERNAL: `append` fails only where serialization does, and then stores what was
serialized under the offset it returns. -/
theorem append_eq_some_iff {log log' : PartitionLog} {b : RecordBatch} {base : ℤ} :
    log.append b = some (log', base) ↔
      base = log.nextOffset ∧ ∃ out,
        serializeBatch (assignOffsets base b) appendBufferSize = some out ∧
        log' = log.commit (assignOffsets base b) out := by
  unfold append
  simp only [Option.bind_eq_bind, Option.bind_eq_some_iff, Option.pure_def, Option.some.injEq,
    Prod.mk.injEq]
  constructor
  · rintro ⟨out, hout, rfl, rfl⟩
    exact ⟨rfl, out, hout, rfl⟩
  · rintro ⟨rfl, out, hout, rfl⟩
    exact ⟨out, hout, rfl, rfl⟩

/-- What a producer may expect of an acknowledged batch: behind the header the stored
bytes are the raw bytes of all its records in order, and the record count and last offset
delta of the header and the offsets taken from `next_offset_` all count these records. -/
def StoresEveryRecord (log : PartitionLog) (b : RecordBatch) : Prop :=
  ∃ log' base out, log.append b = some (log', base) ∧
    serializeBatch (assignOffsets base b) appendBufferSize = some out ∧
    out.drop 61 = (b.records.map Record.raw).flatten ∧
    intOfBe (slice out 57 4) = b.records.length ∧
    intOfBe (slice out 23 4) = b.records.length - 1 ∧
    log'.nextOffset = base + b.records.length

theorem length_flatten_raw (rs : List Record) :
    (rs.map Record.raw).flatten.length = (rs.map Record.totalSize).sum := by
  rw [List.length_flatten, List.map_map]
  rfl

section Laid

variable {α : Type} {rs : List Record} {xs : List α} {bytes : α → Bytes}
  (h : rs.map Record.data = xs.map fun x => some (bytes x))

include h

theorem length_of_data : rs.length = xs.length := by
  have hlen := congrArg List.length h
  rwa [List.length_map, List.length_map] at hlen

theorem flatten_raw_of_data : (rs.map Record.raw).flatten = xs.flatMap bytes := by
  have hraw := congrArg (List.map fun d : Option Bytes => d.getD []) h
  rw [List.map_map, List.map_map] at hraw
  rw [List.flatMap_def]
  exact congrArg List.flatten hraw

theorem exists_bytes_of_data (hne : ∀ x, bytes x ≠ []) :
    ∀ r ∈ rs, r.data.isSome ∧ 0 < r.totalSize := by
  intro r hr
  have hdata : r.data ∈ xs.map fun x => some (bytes x) := by
    rw [← h]
    exact List.mem_map_of_mem hr
  obtain ⟨x, -, hx⟩ := List.mem_map.mp hdata
  rw [Record.totalSize, ← hx]
  exact ⟨rfl, List.length_pos_iff.mpr (hne x)⟩

end Laid

/-- INTERNAL: the buffer is never filled, so a batch stored whole is smaller than it. -/
theorem serializedSize_lt_of_storesEveryRecord {log : PartitionLog} {b : RecordBatch}
    (h : StoresEveryRecord log b) : b.serializedSize < 65536 := by
  obtain ⟨log', base, out, -, hser, hbody, -⟩ := h
  obtain ⟨hge, hlt, -⟩ := serializeBatch_spec hser
  have hlen := congrArg List.length hbody
  rw [List.length_drop, length_flatten_raw] at hlen
  unfold RecordBatch.serializedSize
  omega

/-- INTERNAL: records with at least one byte each are at most as many as their bytes. -/
theorem length_le_sum_totalSize {rs : List Record} (hdata : ∀ r ∈ rs, 0 < r.totalSize) :
    rs.length ≤ (rs.map Record.totalSize).sum := by
  have h := List.card_nsmul_le_sum (rs.map Record.totalSize) 1 (by
    intro n hn
    obtain ⟨r, hr, rfl⟩ := List.mem_map.mp hn
    exact hdata r hr)
  simpa using h

/-- INTERNAL: **a batch smaller than the buffer is serialized whole.** -/
theorem serializeBatch_whole {b : RecordBatch}
    (hdata : ∀ r ∈ b.records, r.data.isSome ∧ 0 < r.totalSize)
    (hfits : b.serializedSize < 65536) :
    serializeBatch b appendBufferSize =
      some (patchBatchLength (serializeHeader b ++ (b.records.map Record.raw).flatten)) := by
  have hcap : appendBufferSize = 65536 := rfl
  have hloop : b.records.foldlM (serializeRecord appendBufferSize) (serializeHeader b) =
      some (serializeHeader b ++ (b.records.map Record.raw).flatten) := by
    refine foldlM_serializeRecord_of_fits (by decide) b.records _ hdata ?_
    rw [length_serializeHeader, hcap]
    exact hfits
  unfold serializeBatch
  rw [hloop]
  rfl

/-- INTERNAL: the same once the records are numbered. -/
theorem serializeBatch_of_serializedSize_lt (base : ℤ) {b : RecordBatch}
    (hdata : ∀ r ∈ b.records, r.data.isSome ∧ 0 < r.totalSize)
    (hfits : b.serializedSize < 65536) :
    serializeBatch (assignOffsets base b) appendBufferSize =
      some (patchBatchLength (serializeHeader (assignOffsets base b) ++
        (b.records.map Record.raw).flatten)) := by
  have hraw : (assignOffsets base b).records.map Record.raw = b.records.map Record.raw :=
    map_assignOffsets (fun d => d.getD []) base b
  have hsize : (assignOffsets base b).records.map Record.totalSize =
      b.records.map Record.totalSize :=
    map_assignOffsets (fun d => (d.getD []).length) base b
  rw [← hraw]
  refine serializeBatch_whole (fun r hr => ?_) ?_
  · have hr' : r.data ∈ b.records.map Record.data := by
      rw [← map_data_assignOffsets base b]
      exact List.mem_map_of_mem hr
    obtain ⟨r₀, hr₀, hdata₀⟩ := List.mem_map.mp hr'
    have h₀ := hdata r₀ hr₀
    unfold Record.totalSize at h₀ ⊢
    rwa [hdata₀] at h₀
  · rw [RecordBatch.serializedSize, hsize]
    exact hfits

/-- INTERNAL: a batch smaller than the buffer is stored whole. Its records have at least
one byte each, so there are fewer of them than an `int32_t` counts. -/
theorem storesEveryRecord_of_serializedSize_lt (log : PartitionLog) {b : RecordBatch}
    (hdata : ∀ r ∈ b.records, r.data.isSome ∧ 0 < r.totalSize)
    (hfits : b.serializedSize < 65536) : StoresEveryRecord log b := by
  have hser := serializeBatch_of_serializedSize_lt log.nextOffset hdata hfits
  have hcount := length_le_sum_totalSize fun r hr => (hdata r hr).2
  have hbody := length_flatten_raw b.records
  unfold RecordBatch.serializedSize at hfits
  obtain ⟨-, -, -, hdelta, hrc, hdrop⟩ := patched_fields (assignOffsets log.nextOffset b)
    (b.records.map Record.raw).flatten (by omega)
  rw [length_assignOffsets] at hdelta hrc
  rw [toInt32_of_fits (by omega) (by omega)] at hrc
  rw [toInt32_of_fits (v := b.records.length) (by omega) (by omega),
    toInt32_of_fits (by omega) (by omega)] at hdelta
  exact ⟨_, log.nextOffset, _, append_eq_some_iff.mpr ⟨rfl, _, hser, rfl⟩, hser, hdrop, hrc,
    hdelta, nextOffset_commit _ _ _ _⟩

/-- INTERNAL: a batch smaller than the buffer is appended, and takes its serialized size. -/
theorem exists_append_of_serializedSize_lt (log : PartitionLog) {b : RecordBatch}
    (hdata : ∀ r ∈ b.records, r.data.isSome ∧ 0 < r.totalSize)
    (hfits : b.serializedSize < 65536) :
    ∃ log' out, log.append b = some (log', log.nextOffset) ∧
      serializeBatch (assignOffsets log.nextOffset b) appendBufferSize = some out ∧
      out.length = b.serializedSize := by
  obtain ⟨log', base, out, happ, hser, hbody, -⟩ :=
    storesEveryRecord_of_serializedSize_lt log hdata hfits
  obtain ⟨rfl, -⟩ := append_eq_some_iff.mp happ
  refine ⟨log', out, happ, hser, ?_⟩
  have hge := (serializeBatch_spec hser).1
  have hlen := congrArg List.length hbody
  rw [List.length_drop, length_flatten_raw] at hlen
  unfold RecordBatch.serializedSize
  omega

/-- A record over zero bytes, as long as asked. -/
def zeroRecord (n : ℕ) (h : n < 2 ^ 32) : Record :=
  { data := some (List.replicate n 0), size_lt := by simpa using h }

theorem large_fits : 40000 < 2 ^ 32 := by decide

theorem zeroRecord_totalSize (n : ℕ) (h : n < 2 ^ 32) : (zeroRecord n h).totalSize = n := by
  simp [zeroRecord, Record.totalSize]

theorem zeroRecord_data (n : ℕ) (h : n < 2 ^ 32) : (zeroRecord n h).data.isSome := rfl

theorem serializedSize_zeroRecord (n : ℕ) (h : n < 2 ^ 32) :
    RecordBatch.serializedSize { records := [zeroRecord n h] } = 61 + n := by
  simp [RecordBatch.serializedSize, zeroRecord_totalSize]

/-- A batch of two records, of ten bytes and of 40000. -/
def mixedBatch : RecordBatch :=
  { records := [zeroRecord 10 (by decide), zeroRecord 40000 large_fits] }

end StrikeMQ.Analysis.BatchSerialization
