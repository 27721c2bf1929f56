import StrikeMQ.Analysis.LogLayout
import StrikeMQ.Interface.SegmentFormat

/-!
# Segments on disk after any appends

`Layout` speaks of stored batches with the offsets that `append` gave them. Their headers say
the same as long as the 32-bit record count holds the number of records and the 64-bit base
offset the offset, so the bytes of the segments are in the format that `SegmentRun` describes.
-/

set_option autoImplicit false

namespace StrikeMQ.Analysis.SegmentLayout

open StrikeMQ.Lib StrikeMQ.Model StrikeMQ.Interface
open StrikeMQ.Interface.StoredBatch StrikeMQ.Analysis.BatchSerialization
open StrikeMQ.Analysis.LogLayout
open StrikeMQ.Model.PartitionLog (serializeBatch serializeRecord serializeHeader assignOffsets
  appendAll create)

/-! ## Appends succeed -/

/-- INTERNAL: a record of less than 2 GiB does not make the guard's sum wrap. -/
theorem exists_serializeRecord {buf : Bytes} (hbuf : buf.length < 65536) {r : Record}
    (hr : r.totalSize < 2 ^ 31) : ∃ out, serializeRecord 65536 buf r = some out := by
  unfold serializeRecord
  split
  · next hguard =>
    obtain ⟨-, -, hlt⟩ := hguard
    rw [toUInt32_of_lt (by omega)] at hlt
    rw [if_pos (by omega)]
    exact ⟨_, rfl⟩
  · exact ⟨buf, rfl⟩

theorem exists_foldlM_serializeRecord {rs : List Record} (hrs : ∀ r ∈ rs, r.totalSize < 2 ^ 31)
    {buf : Bytes} (hbuf : buf.length < 65536) :
    ∃ out, rs.foldlM (serializeRecord 65536) buf = some out := by
  induction rs generalizing buf with
  | nil => exact ⟨buf, rfl⟩
  | cons r rs ih =>
    obtain ⟨mid, hmid⟩ := exists_serializeRecord hbuf (hrs r List.mem_cons_self)
    have hlen : mid.length < 65536 := by
      rcases serializeRecord_cases (by norm_num) hmid with ⟨-, hlt⟩ | rfl
      · exact hlt
      · exact hbuf
    obtain ⟨out, hout⟩ := ih (fun r' hr' => hrs r' (List.mem_cons_of_mem _ hr')) hlen
    exact ⟨out, foldlM_cons_eq_some_iff.mpr ⟨mid, hmid, hout⟩⟩

/-- INTERNAL: no copy leaves the buffer if the records are shorter than `2^31`. -/
theorem exists_serializeBatch {b : RecordBatch} (hb : ∀ r ∈ b.records, r.totalSize < 2 ^ 31) :
    ∃ out, serializeBatch b appendBufferSize = some out := by
  obtain ⟨buf, hbuf⟩ := exists_foldlM_serializeRecord hb
    (show (serializeHeader b).length < 65536 by rw [length_serializeHeader]; norm_num)
  refine ⟨PartitionLog.patchBatchLength buf, ?_⟩
  unfold serializeBatch appendBufferSize
  rw [hbuf]
  rfl

theorem totalSize_assignOffsets {n : ℕ} {b : RecordBatch} (hb : ∀ r ∈ b.records, r.totalSize < n)
    (base : ℤ) : ∀ r ∈ (assignOffsets base b).records, r.totalSize < n := by
  intro r hr
  have hsize : r.totalSize ∈ b.records.map Record.totalSize := by
    have hmap := map_assignOffsets (fun d => (d.getD []).length) base b
    change r.totalSize ∈ b.records.map fun r => (r.data.getD []).length
    rw [← hmap]
    exact List.mem_map_of_mem hr
  obtain ⟨r₀, hr₀, heq⟩ := List.mem_map.mp hsize
  rw [← heq]
  exact hb r₀ hr₀

/-- INTERNAL: a batch of records of less than 2 GiB is appended at the log's next offset. -/
theorem exists_append_of_totalSize (log : PartitionLog) {b : RecordBatch}
    (hb : ∀ r ∈ b.records, r.totalSize < 2 ^ 31) :
    ∃ out, serializeBatch (assignOffsets log.nextOffset b) appendBufferSize = some out ∧
      log.append b = some (log.commit (assignOffsets log.nextOffset b) out, log.nextOffset) := by
  obtain ⟨out, hout⟩ := exists_serializeBatch (totalSize_assignOffsets hb log.nextOffset)
  exact ⟨out, hout, append_eq_some_iff.mpr ⟨rfl, out, hout, rfl⟩⟩

/-- INTERNAL: batches of records of less than 2 GiB are all appended. -/
theorem exists_appendAll_of_totalSize (log : PartitionLog) {bs : List RecordBatch}
    (hbs : ∀ b ∈ bs, ∀ r ∈ b.records, r.totalSize < 2 ^ 31) :
    ∃ log' stored, log.appendAll bs = some (log', stored) := by
  induction bs generalizing log with
  | nil => exact ⟨log, [], rfl⟩
  | cons b bs ih =>
    obtain ⟨out, hout, happ⟩ := exists_append_of_totalSize log (hbs b List.mem_cons_self)
    obtain ⟨log₂, stored, hrest⟩ := ih (log.commit (assignOffsets log.nextOffset b) out)
      fun c hc => hbs c (List.mem_cons_of_mem _ hc)
    exact ⟨log₂, _, appendAll_cons_iff.mpr ⟨_, log.nextOffset, out, stored, happ, hout, hrest,
      rfl⟩⟩

/-! ## Headers say what was stored -/

theorem headerBaseOffset_eq (b : StoredBatch) (hlo : 0 ≤ b.base) (hhi : b.base < 2 ^ 63) :
    headerBaseOffset b.bytes = b.base :=
  b.base_eq.trans (toInt64_of_fits (by omega) hhi)

theorem headerRecordCount_eq (b : StoredBatch) (hcount : b.count < 2 ^ 31) :
    headerRecordCount b.bytes = b.count :=
  b.recordCount_eq.trans (toInt32_of_fits (by omega) (by omega))

/-- INTERNAL: the batches of one segment. The induction is on the batches, the offset runs
along. -/
theorem batchRun_of_chained {o : ℤ} {bs : List StoredBatch} (ho : 0 ≤ o) (h : Chained o bs)
    (hcount : ∀ b ∈ bs, b.count < 2 ^ 31) (hend : endOffset o bs < 2 ^ 63) :
    BatchRun o (bs.map StoredBatch.bytes) (endOffset o bs) := by
  induction bs generalizing o with
  | nil => exact endOffset_nil o
  | cons b bs ih =>
    obtain ⟨hbase, hrest⟩ := h
    have hlen := b.header_le
    have hle := le_endOffset o (b :: bs)
    rw [endOffset_cons] at hend ⊢
    refine ⟨by omega, b.batchLength_eq, ?_, ?_⟩
    · rw [headerBaseOffset_eq b (by omega) (by rw [endOffset_cons] at hle; omega), hbase]
    · rw [headerRecordCount_eq b (hcount b List.mem_cons_self)]
      exact ih (by omega) hrest (fun c hc => hcount c (List.mem_cons_of_mem _ hc)) hend

/-- INTERNAL: all segments. The induction is on the segments, the offset runs along. -/
theorem segmentRun_of_segmentsFrom {o : ℤ} {segs : List LogSegment}
    {parts : List (List StoredBatch)} (ho : 0 ≤ o)
    (hsegs : segs.map (fun s => (s.baseOffset, s.data)) = segmentsFrom o parts)
    (h : Chained o parts.flatten) (hcount : ∀ b ∈ parts.flatten, b.count < 2 ^ 31)
    (hend : endOffset o parts.flatten < 2 ^ 63) :
    SegmentRun o segs (parts.map fun p => p.map StoredBatch.bytes) (endOffset o parts.flatten) := by
  induction parts generalizing o segs with
  | nil =>
    obtain rfl : segs = [] := List.map_eq_nil_iff.mp hsegs
    exact endOffset_nil o
  | cons p ps ih =>
    cases segs with
    | nil => cases hsegs
    | cons s ss =>
      simp only [List.map_cons, segmentsFrom, List.cons.injEq, Prod.mk.injEq] at hsegs
      obtain ⟨⟨hbase, hdata⟩, hrest⟩ := hsegs
      rw [List.flatten_cons] at h hcount hend ⊢
      rw [chained_append] at h
      rw [endOffset_append] at hend ⊢
      have hmid := le_endOffset o p
      have hlast := le_endOffset (endOffset o p) ps.flatten
      refine ⟨hbase, hdata, endOffset o p, ?_, ?_⟩
      · exact batchRun_of_chained ho h.1 (fun b hb => hcount b (List.mem_append_left _ hb))
          (by omega)
      · exact ih (by omega) hrest h.2 (fun b hb => hcount b (List.mem_append_right _ hb)) hend

theorem segments_eq_segmentsFrom {log : PartitionLog} {older : List (List StoredBatch)}
    {active : List StoredBatch} (h : Layout log older active) :
    log.segments.map (fun s => (s.baseOffset, s.data)) = segmentsFrom 0 (older ++ [active]) := by
  rw [PartitionLog.segments, List.map_append, h.sealed_eq, segmentsFrom_append, ← h.base_eq,
    ← h.data_eq]
  rfl

/-- INTERNAL: the offsets that a run takes are the records it appended. -/
theorem endOffset_zero_eq {bs : List StoredBatch} {batches : List RecordBatch}
    (h : bs.map StoredBatch.count = batches.map fun b => b.records.length) :
    endOffset 0 bs = ((batches.map fun b => b.records.length).sum : ℕ) := by
  rw [endOffset, h, zero_add]

/-- PROPERTY: for every segment size of at least 64 KiB and every batches of at least one and fewer
than `2^31` records of less than 2 GiB each, as long as offsets stay below `2^63`, all appends
succeed, and the segments are made of whole batches, the stored ones in call order, whose lengths
and offsets are as their headers say: offsets run without a gap from 0 through all batches of all
segments to the next offset, every segment starts at the offset it is named after, and the offsets
that the calls returned are those in the headers.
SOURCE: storage/partition_log.h:59-65, 117-134, 198-250 -/
theorem segments_laid_out (tp : TopicPartition) (baseDir : Bytes) (segmentSize : ℕ)
    (hsize : 65536 ≤ segmentSize) (bs : List RecordBatch)
    (hrecords : ∀ b ∈ bs, ∀ r ∈ b.records, r.totalSize < 2 ^ 31)
    (hcount : ∀ b ∈ bs, 0 < b.records.length ∧ b.records.length < 2 ^ 31)
    (htotal : (bs.map fun b => b.records.length).sum < 2 ^ 63) :
    ∃ log stored, (create tp baseDir segmentSize).appendAll bs = some (log, stored) ∧
      ∃ parts, SegmentRun 0 log.segments parts log.nextOffset ∧
        parts.flatten = stored.map Prod.snd ∧
        parts.flatten.map headerBaseOffset = stored.map Prod.fst := by
  obtain ⟨log, stored, hrun⟩ :=
    exists_appendAll_of_totalSize (create tp baseDir segmentSize) hrecords
  obtain ⟨older, active, new, hlayout, hall, hnew, hnewCount, -⟩ :=
    layout_appendAll (layout_create tp baseDir segmentSize) hrun (Or.inl hsize)
  simp only [List.flatten_nil, List.nil_append] at hall
  have hflat : (older ++ [active]).flatten = new := by
    rw [List.flatten_append, List.flatten_singleton, hall]
  have hend : endOffset 0 new < 2 ^ 63 := by
    rw [endOffset_zero_eq hnewCount]
    exact_mod_cast htotal
  have hsmall : ∀ b ∈ new, b.count < 2 ^ 31 := by
    intro b hb
    have hmem : b.count ∈ bs.map fun b => b.records.length := by
      rw [← hnewCount]
      exact List.mem_map_of_mem hb
    obtain ⟨b₀, hb₀, heq⟩ := List.mem_map.mp hmem
    rw [← heq]
    exact (hcount b₀ hb₀).2
  have hchained : Chained 0 new := by
    rw [← hall]
    exact hlayout.chained
  have hsegments : SegmentRun 0 log.segments
      ((older ++ [active]).map fun p => p.map StoredBatch.bytes) log.nextOffset := by
    rw [hlayout.next_eq, hall, ← hflat]
    rw [← hflat] at hchained hsmall hend
    exact segmentRun_of_segmentsFrom (le_refl 0) (segments_eq_segmentsFrom hlayout) hchained
      hsmall hend
  have hbytes : ((older ++ [active]).map fun p => p.map StoredBatch.bytes).flatten =
      new.map StoredBatch.bytes := by
    rw [← List.map_flatten, hflat]
  refine ⟨log, stored, hrun, _, hsegments, ?_, ?_⟩
  · rw [hbytes, ← hnew, List.map_map]
    rfl
  · rw [hbytes, ← hnew, List.map_map, List.map_map]
    apply List.map_congr_left
    intro b hb
    have hrange := hchained.base_mem hb
    exact headerBaseOffset_eq b hrange.1 (by omega)

/-- Two batches of 40000 bytes, which do not fit one segment. -/
def twoLargeBatches : List RecordBatch :=
  List.replicate 2 { records := [zeroRecord 40000 large_fits] }

/-- Two batches that do not fit one segment are laid out over the segments of their log. -/
theorem segments_laid_out_rolled :
    ∃ log stored, (create ⟨ascii "t", 0⟩ [] 65536).appendAll twoLargeBatches = some (log, stored) ∧
      ∃ parts, SegmentRun 0 log.segments parts log.nextOffset ∧
        parts.flatten = stored.map Prod.snd ∧
        parts.flatten.map headerBaseOffset = stored.map Prod.fst := by
  have hbatch : ∀ b ∈ twoLargeBatches, b = { records := [zeroRecord 40000 large_fits] } :=
    fun b hb => List.eq_of_mem_replicate hb
  apply segments_laid_out
  · norm_num
  · intro b hb r hr
    rw [hbatch b hb] at hr
    rw [List.mem_singleton.mp hr, zeroRecord_totalSize]
    norm_num
  · intro b hb
    rw [hbatch b hb]
    norm_num
  · norm_num [twoLargeBatches]

/-! ## A record count that does not fit its field -/

/-- INTERNAL: bytes that are one batch are not two. -/
theorem batchRun_flatten_eq {o o' : ℤ} {p : List Bytes} {b : StoredBatch} (h : BatchRun o p o')
    (hp : p.flatten = b.bytes) : o' = o + headerRecordCount b.bytes := by
  have hlen := b.header_le
  cases p with
  | nil =>
    rw [← hp] at hlen
    simp at hlen
  | cons c cs =>
    obtain ⟨hc, hcLen, -, hrest⟩ := h
    rw [List.flatten_cons] at hp
    have hsame : headerBatchLength c = headerBatchLength b.bytes := by
      rw [← hp]
      unfold headerBatchLength
      rw [slice_append_left _ _ _ _ (by omega)]
    have hfull : headerBatchLength b.bytes = (b.bytes.length - 12 : ℕ) := b.batchLength_eq
    have hsum : c.length + cs.flatten.length = b.bytes.length := by
      rw [← hp, List.length_append]
    have hnone : cs.flatten = [] := by
      apply List.eq_nil_of_length_eq_zero
      omega
    rw [hnone, List.append_nil] at hp
    cases cs with
    | nil =>
      have hend : o' = o + headerRecordCount c := hrest
      rw [hend, hp]
    | cons d ds =>
      obtain ⟨hd, -⟩ := hrest
      rw [List.flatten_cons, List.append_eq_nil_iff] at hnone
      rw [hnone.1] at hd
      simp at hd

/-- A batch of `n` records without bytes. -/
def emptyRecords (n : ℕ) : RecordBatch :=
  { records := List.replicate n { data := none, size_lt := by simp } }

/-- After a batch of `2^31` records the count in its header is negative, so the next offset is
not where it leads. -/
theorem record_count_does_not_fit :
    ∃ log base, (create ⟨ascii "t", 0⟩ [] 65536).append (emptyRecords (2 ^ 31)) =
        some (log, base) ∧
      (emptyRecords (2 ^ 31)).records ≠ [] ∧
      (∀ r ∈ (emptyRecords (2 ^ 31)).records, r.totalSize < 2 ^ 31) ∧
      ∀ parts, ¬ SegmentRun 0 log.segments parts log.nextOffset := by
  have hsizes : ∀ r ∈ (emptyRecords (2 ^ 31)).records, r.totalSize < 2 ^ 31 := by
    intro r hr
    rw [List.eq_of_mem_replicate hr]
    show 0 < 2 ^ 31
    norm_num
  have hcount : (emptyRecords (2 ^ 31)).records.length = 2 ^ 31 := List.length_replicate
  obtain ⟨out, hout⟩ := exists_serializeBatch (totalSize_assignOffsets hsizes 0)
  have happ : (create ⟨ascii "t", 0⟩ [] 65536).append (emptyRecords (2 ^ 31)) =
      some ((create ⟨ascii "t", 0⟩ [] 65536).commit (assignOffsets 0 (emptyRecords (2 ^ 31))) out,
        0) := append_eq_some_iff.mpr ⟨rfl, out, hout, rfl⟩
  refine ⟨_, _, happ, ?_, hsizes, ?_⟩
  · apply List.ne_nil_of_length_pos
    rw [hcount]
    norm_num
  generalize (create ⟨ascii "t", 0⟩ [] 65536).commit (assignOffsets 0 (emptyRecords (2 ^ 31))) out =
    log at happ
  obtain ⟨-, sb, ⟨-, -, hsb⟩, hcases⟩ := layout_append (layout_create _ _ _) happ
  have hlt := sb.length_lt
  rcases hcases with ⟨-, hsealed, hlayout⟩ | ⟨hfull, -⟩
  · intro parts hparts
    have hsegments : log.segments = [log.activeSegment] := by
      rw [PartitionLog.segments, hsealed]
      rfl
    have hcount' : sb.count = 2 ^ 31 := hsb.trans hcount
    have hnext : log.nextOffset = 2 ^ 31 := by
      rw [hlayout.next_eq]
      simp [hcount']
    have hheader : headerRecordCount sb.bytes = -2 ^ 31 := by
      rw [headerRecordCount, sb.recordCount_eq, hcount']
      decide
    rw [hsegments, hnext] at hparts
    cases parts with
    | nil => exact hparts
    | cons p ps =>
      obtain ⟨-, hdata, mid, hrun, hrest⟩ := hparts
      have hone : p.flatten = sb.bytes := by
        rw [← hdata, hlayout.data_eq]
        simp
      have hmid := batchRun_flatten_eq hrun hone
      cases ps with
      | nil =>
        have hend : (2 : ℤ) ^ 31 = mid := hrest
        omega
      | cons q qs => exact hrest
  · have hlen : sb.len = sb.bytes.length := rfl
    have hsize : (create ⟨ascii "t", 0⟩ [] 65536).segmentSize = 65536 := rfl
    rw [lenOf_nil, hsize] at hfull
    omega

end StrikeMQ.Analysis.SegmentLayout
