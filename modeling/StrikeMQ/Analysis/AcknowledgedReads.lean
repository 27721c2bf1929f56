import StrikeMQ.Analysis.PartitionRead

/-!
# Reading back what was acknowledged

What a client may count on after an `append` returned a base offset. The reader sees the
active segment only, so a batch is found again at its base offset when it lies in that
segment and the index does not send the scan to a position of an older one. An offset in
the middle of a batch is never found: the scan takes the first batch that starts at the
offset or later.
-/

set_option autoImplicit false

namespace StrikeMQ.Analysis.AcknowledgedReads

open StrikeMQ.Lib StrikeMQ.Model StrikeMQ.Interface
open StrikeMQ.Interface.StoredBatch StrikeMQ.Analysis.BatchSerialization
open StrikeMQ.Analysis.LogLayout StrikeMQ.Analysis.PartitionRead
open StrikeMQ.Model.PartitionLog (serializeBatch assignOffsets)

/-! ## Runs of non-empty batches -/

/-- INTERNAL: the log invariant of a run of non-empty batches, as the reader needs it: the
layout, the batches in append order, and what their counts are. -/
structure RunLayout (log : PartitionLog) (stored : List (ℤ × Bytes))
    (older : List (List StoredBatch)) (active : List StoredBatch) : Prop where
  layout : Layout log older active
  stored_eq : (older.flatten ++ active).map (fun b => (b.base, b.bytes)) = stored
  count_pos : ∀ b ∈ older.flatten ++ active, 0 < b.count

/-- INTERNAL: **every run of non-empty batches reaches the invariant**, with a single
segment when nothing was sealed. -/
theorem exists_runLayout {tp : TopicPartition} {baseDir : Bytes} {segmentSize : ℕ}
    {bs : List RecordBatch} {log : PartitionLog} {stored : List (ℤ × Bytes)}
    (hne : ∀ b ∈ bs, b.records ≠ [])
    (hrun : (PartitionLog.create tp baseDir segmentSize).appendAll bs = some (log, stored))
    (hok : 65536 ≤ segmentSize ∨ log.sealed = []) :
    ∃ older active, RunLayout log stored older active ∧
      (older.flatten ++ active).map StoredBatch.count = bs.map (fun b => b.records.length) ∧
      (log.sealed = [] → older = []) := by
  obtain ⟨older, active, new, hlay, hall, hnew, hcnt, hkeep⟩ :=
    layout_appendAll (layout_create tp baseDir segmentSize) hrun hok
  rw [List.flatten_nil, List.nil_append, List.nil_append] at hall
  refine ⟨older, active, ⟨hlay, by rw [hall]; exact hnew, ?_⟩, by rw [hall]; exact hcnt, hkeep⟩
  intro b hb
  rw [hall] at hb
  have hmem : b.count ∈ bs.map (fun b => b.records.length) := by
    rw [← hcnt]
    exact List.mem_map_of_mem hb
  obtain ⟨rb, hrb, hlen⟩ := List.mem_map.mp hmem
  rw [← hlen]
  exact List.length_pos_iff.mpr (hne rb hrb)

/-- INTERNAL: batches of a chain before another one start below it. -/
theorem base_lt_endOffset {o : ℤ} {bs : List StoredBatch} (h : Chained o bs)
    (hpos : ∀ b ∈ bs, 0 < b.count) {b : StoredBatch} (hb : b ∈ bs) :
    b.base < endOffset o bs := by
  have hmem := h.base_mem hb
  have := hpos b hb
  omega

/-- INTERNAL: at the base offset of a batch of the active segment the reader's batches are
that batch and the ones after it. -/
theorem fromOffset_split {o : ℤ} {pre post : List StoredBatch} {b : StoredBatch}
    (h : Chained o (pre ++ b :: post)) (hpos : ∀ c ∈ pre, 0 < c.count) :
    fromOffset (pre ++ b :: post) b.base = b :: post := by
  rw [chained_append] at h
  unfold fromOffset
  rw [List.dropWhile_append_of_pos, List.dropWhile_cons_of_neg (by simp)]
  intro c hc
  have hlt := base_lt_endOffset h.1 hpos hc
  have hb : b.base = _ := h.2.1
  simp only [decide_eq_true_eq]
  omega

namespace RunLayout

variable {log : PartitionLog} {stored : List (ℤ × Bytes)} {older : List (List StoredBatch)}
  {active : List StoredBatch}

/-- INTERNAL: from the active segment's first offset on, the batches still to be read are
those of the active segment. -/
theorem batchesFrom_eq (h : RunLayout log stored older active) {s : ℤ}
    (hs : log.activeSegment.baseOffset ≤ s) :
    batchesFrom stored s = (fromOffset active s).map StoredBatch.bytes := by
  have hchain := (chained_append 0 _ _).mp h.layout.chained
  unfold batchesFrom fromOffset
  rw [← h.stored_eq, List.dropWhile_map, List.map_map]
  change ((older.flatten ++ active).dropWhile (fun b => decide (b.base < s))).map _ = _
  rw [List.dropWhile_append_of_pos]
  · rfl
  · intro b hb
    have hlt := base_lt_endOffset hchain.1
      (fun c hc => h.count_pos c (List.mem_append_left _ hc)) hb
    rw [← h.layout.base_eq] at hlt
    simp only [decide_eq_true_eq]
    omega

/-- INTERNAL: a read whose sizes fit returns the collected batches whole. -/
theorem read_of_fetchFits (h : RunLayout log stored older active)
    (hmax : log.nextOffset < 2 ^ 63) {s m : ℤ} (hs : log.activeSegment.baseOffset ≤ s)
    (hindex : IndexedAt log active s) (hfits : FetchFits m (batchesFrom stored s)) :
    (log.read s m).data =
      if fromOffset active s = [] ∨ log.nextOffset ≤ s then none
      else some (shortestRun m 0 (batchesFrom stored s)).flatten := by
  rw [h.batchesFrom_eq hs] at hfits ⊢
  obtain ⟨hrun, hlt⟩ := collect_of_fetchFits hfits
  rw [read_refines m h.layout hmax hindex]
  simp only [collect_eq_nil_iff]
  rw [toUInt32_of_lt hlt, ← length_bytesOf, List.take_length, ← hrun]
  rfl

/-- INTERNAL: a batch whose base offset the active segment reaches lies in it. -/
theorem exists_split (h : RunLayout log stored older active) {b : ℤ} {out : Bytes}
    (hmem : (b, out) ∈ stored) (hb : log.activeSegment.baseOffset ≤ b) :
    ∃ pre sb post, active = pre ++ sb :: post ∧ sb.base = b ∧ sb.bytes = out := by
  have hchain := (chained_append 0 _ _).mp h.layout.chained
  rw [← h.stored_eq] at hmem
  obtain ⟨sb, hsb, heq⟩ := List.mem_map.mp hmem
  obtain ⟨rfl, rfl⟩ := Prod.mk.inj heq
  rcases List.mem_append.mp hsb with hold | hact
  · have hlt := base_lt_endOffset hchain.1
      (fun c hc => h.count_pos c (List.mem_append_left _ hc)) hold
    rw [← h.layout.base_eq] at hlt
    omega
  · obtain ⟨pre, post, hsplit⟩ := List.append_of_mem hact
    exact ⟨pre, sb, post, hsplit, rfl, rfl⟩

/-- INTERNAL: at the base offset of an active batch the read starts with that batch. -/
theorem fromOffset_eq (h : RunLayout log stored older active) {pre post : List StoredBatch}
    {sb : StoredBatch} (hsplit : active = pre ++ sb :: post) :
    fromOffset active sb.base = sb :: post := by
  have hchain := (chained_append 0 _ _).mp h.layout.chained
  rw [hsplit] at hchain ⊢
  exact fromOffset_split hchain.2
    (fun c hc => h.count_pos c (by rw [hsplit]; simp [hc]))

theorem base_lt_nextOffset (h : RunLayout log stored older active) {sb : StoredBatch}
    (hsb : sb ∈ active) : sb.base < log.nextOffset := by
  rw [h.layout.next_eq]
  exact base_lt_endOffset h.layout.chained h.count_pos (List.mem_append_right _ hsb)

end RunLayout

theorem head_shortestRun (m : ℤ) (n : ℕ) (b : Bytes) (bs : List Bytes) :
    b <+: (shortestRun m n (b :: bs)).flatten := by
  rw [shortestRun]
  split
  · simp
  · exact ⟨_, by rw [List.flatten_cons]⟩

/-! ## Acknowledged batches -/

/-- PROPERTY: after any run of non-empty appends, with any number of rolls, a batch of the
active segment is read back at the base offset its `append` returned: the data starts with
exactly its stored bytes. For the active segment's own first offset the index must not
answer with a position of the segment before it; the sizes collected must fit 32 bits.
SOURCE: storage/partition_log.h:117-204 -/
theorem read_returns_batch_of_active_segment (tp : TopicPartition) (baseDir : Bytes)
    (segmentSize : ℕ) (hseg : 65536 ≤ segmentSize) (bs : List RecordBatch)
    (hne : ∀ b ∈ bs, b.records ≠ []) (log : PartitionLog) (stored : List (ℤ × Bytes))
    (hrun : (PartitionLog.create tp baseDir segmentSize).appendAll bs = some (log, stored))
    (hmax : log.nextOffset < 2 ^ 63) (b : ℤ) (out : Bytes) (hmem : (b, out) ∈ stored)
    (hactive : log.activeSegment.baseOffset ≤ b)
    (hfirst : b = log.activeSegment.baseOffset → log.index.lookup b = 0) (m : ℤ)
    (hfits : FetchFits m (batchesFrom stored b)) :
    ∃ data, (log.read b m).data = some data ∧ data ≠ [] ∧ out <+: data := by
  obtain ⟨older, active, h, -, -⟩ := exists_runLayout hne hrun (Or.inl hseg)
  obtain ⟨pre, sb, post, hsplit, rfl, rfl⟩ := h.exists_split hmem hactive
  have hsb : sb ∈ active := by
    rw [hsplit]
    simp
  have hindex := indexedAt_of_le h.layout (List.ne_nil_of_mem hsb) hactive hfirst
  have hread := h.read_of_fetchFits hmax hactive hindex hfits
  have hnext := h.base_lt_nextOffset hsb
  rw [h.batchesFrom_eq hactive, h.fromOffset_eq hsplit, if_neg (by simp; omega),
    List.map_cons] at hread
  have hpre := head_shortestRun m 0 sb.bytes (post.map StoredBatch.bytes)
  refine ⟨_, hread, ?_, hpre⟩
  intro hnil
  rw [hnil, List.prefix_nil] at hpre
  have := sb.header_le
  rw [hpre] at this
  simp at this

/-- A batch of two records of one byte. -/
def smallBatch : RecordBatch :=
  { records := [zeroRecord 1 (by norm_num), zeroRecord 1 (by norm_num)] }

/-- A log over one segment of the smallest size that every batch fits in. -/
def smallLog : PartitionLog :=
  PartitionLog.create ⟨[], 0⟩ [] 65536

theorem smallLog_appendAll_isSome : (smallLog.appendAll [smallBatch]).isSome := by
  decide +kernel

/-- The log after one small batch, and what was stored. -/
def smallRun : PartitionLog × List (ℤ × Bytes) :=
  (smallLog.appendAll [smallBatch]).get smallLog_appendAll_isSome

theorem smallLog_appendAll : smallLog.appendAll [smallBatch] = some smallRun :=
  (Option.some_get _).symm

theorem smallBatch_ne : ∀ b ∈ [smallBatch], b.records ≠ [] := by
  decide +kernel

/-- INTERNAL: when the active segment holds one batch and the scan starts at it, any read from
its base offset or before returns the batch. -/
theorem read_single {log : PartitionLog} {older : List (List StoredBatch)} {sb : StoredBatch}
    (h : Layout log older [sb]) (hmax : log.nextOffset < 2 ^ 63) {s : ℤ}
    (hindex : IndexedAt log [sb] s) (hs : s ≤ sb.base) (hnext : s < log.nextOffset) (m : ℤ) :
    (log.read s m).data = some sb.bytes := by
  have hfrom : fromOffset [sb] s = [sb] := by
    unfold fromOffset
    rw [List.dropWhile_cons_of_neg]
    simp only [decide_eq_true_eq]
    omega
  have hcollect : collect m 0 [sb] = [sb] := by
    rw [collect]
    split <;> rfl
  have hlt := sb.length_lt
  have hlen : lenOf [sb] = sb.bytes.length := by
    simp [len]
  rw [read_refines m h hmax hindex, hfrom, hcollect, if_neg (by simp; omega), hlen,
    toUInt32_of_lt (by omega)]
  simp

/-- INTERNAL: once the first segment is sealed with one batch in it, a read from the start
of the log answers with the batch of the next segment. -/
theorem read_zero_after_roll {log : PartitionLog} {sb₀ sb₁ : StoredBatch}
    (h : Layout log [[sb₀]] [sb₁]) (hpos : 0 < sb₀.count) (hmax : log.nextOffset < 2 ^ 63)
    (m : ℤ) : (log.read 0 m).data = some sb₁.bytes := by
  have hbase₀ : sb₀.base = 0 := h.chained.1
  have hbase₁ : sb₁.base = 0 + sb₀.count := h.chained.2.1
  have hnext : log.nextOffset = 0 + sb₀.count + sb₁.count := by
    rw [h.next_eq]
    simp
  -- both batches start at byte 0 of their segment, so the lookup of 0 answers 0
  have hlookup : log.index.lookup 0 = 0 := by
    have hentries : log.index.entries = [⟨sb₀.base, 0⟩, ⟨sb₁.base, 0⟩] := by
      simpa [aligned] using h.index_eq
    simp [OffsetIndex.lookup, hentries, hbase₀]
  have hindex : IndexedAt log [sb₁] 0 := ⟨[], [sb₁], rfl, by simp, by simpa using hlookup, by simp⟩
  exact read_single h hmax hindex (by omega) (by omega) m

/-- A batch of one record that no second one fits into a 64 KiB segment with. -/
def largeBatch : RecordBatch :=
  { records := [zeroRecord 40000 (by norm_num)] }

theorem largeBatch_data : ∀ r ∈ largeBatch.records, r.data.isSome ∧ 0 < r.totalSize := by
  intro r hr
  rw [List.mem_singleton.mp hr, zeroRecord_totalSize]
  exact ⟨zeroRecord_data _ _, by norm_num⟩

theorem serializedSize_largeBatch : largeBatch.serializedSize = 40061 :=
  serializedSize_zeroRecord 40000 (by norm_num)

/-- INTERNAL: of two batches as long as each other and at different offsets neither starts with
the other. -/
theorem not_isPrefix_of_base_ne {sb₀ sb₁ : StoredBatch} (hlen : sb₁.len = sb₀.len)
    (hbase : toInt64 sb₀.base ≠ toInt64 sb₁.base) : ¬sb₀.bytes <+: sb₁.bytes := by
  intro hpre
  have heq : sb₀.bytes = sb₁.bytes := hpre.eq_of_length hlen.symm
  apply hbase
  rw [← sb₀.base_eq, heq, sb₁.base_eq]

/-- INTERNAL: the first large batch fits the fresh segment, the second one does not fit behind
it. -/
theorem exists_rolled (tp : TopicPartition) (baseDir : Bytes) : ∃ log sb₀ sb₁,
    (PartitionLog.create tp baseDir 65536).appendAll [largeBatch, largeBatch] =
        some (log, [(0, sb₀.bytes), (1, sb₁.bytes)]) ∧
      Layout log [[sb₀]] [sb₁] ∧ sb₀.count = 1 ∧ sb₀.base = 0 ∧ sb₁.base = 1 ∧
      log.nextOffset = 2 ∧ sb₁.len = sb₀.len := by
  have hsize := serializedSize_largeBatch
  obtain ⟨log₁, sb₀, happ₀, ⟨hser₀, hbase₀, hcount₀⟩, hlen₀, hseg, hlay₁, -⟩ :=
    exists_layout_append (layout_create tp baseDir 65536) largeBatch_data (by omega) (le_refl 65536)
  have hseg₁ : log₁.segmentSize = 65536 := hseg
  have hfirst : Layout log₁ [] [sb₀] := by
    apply hlay₁
    show lenOf [] + largeBatch.serializedSize ≤ 65536
    rw [lenOf_nil]
    omega
  obtain ⟨log₂, sb₁, happ₁, ⟨hser₁, -, hcount₁⟩, hlen₁, -, -, hlay₂⟩ :=
    exists_layout_append hfirst largeBatch_data (by omega) (by omega)
  have hsecond : Layout log₂ [[sb₀]] [sb₁] := by
    apply hlay₂
    rw [hseg₁, lenOf_cons, lenOf_nil]
    omega
  have hone₀ : sb₀.count = 1 := hcount₀
  have hone₁ : sb₁.count = 1 := hcount₁
  have hnext₁ : log₁.nextOffset = 1 := by
    rw [hfirst.next_eq]
    simp [hone₀]
  have hnext₂ : log₂.nextOffset = 2 := by
    rw [hsecond.next_eq]
    simp [hone₀, hone₁]
  have hzero : sb₀.base = 0 := hbase₀
  have hstart : sb₁.base = 1 := by
    have hchain := hsecond.chained.2.1
    omega
  refine ⟨log₂, sb₀, sb₁, ?_, hsecond, hone₀, hzero, hstart, hnext₂, hlen₁.trans hlen₀.symm⟩
  exact appendAll_cons_iff.mpr ⟨log₁, _, _, _, happ₀, hser₀,
    appendAll_cons_iff.mpr ⟨log₂, _, _, [], happ₁, hser₁, rfl, rfl⟩, by rw [hnext₁]; rfl⟩

/-- The second of two batches that do not share a segment is read back at offset 1, where it was
acknowledged. -/
theorem read_returns_batch_of_active_segment_rolled :
    ∃ log stored out, smallLog.appendAll [largeBatch, largeBatch] = some (log, stored) ∧
      log.sealed ≠ [] ∧ (1, out) ∈ stored ∧
      ∃ data, (log.read 1 1024).data = some data ∧ data ≠ [] ∧ out <+: data := by
  obtain ⟨log, sb₀, sb₁, hrun, hlay, hone, hbase₀, hbase₁, hnext, -⟩ := exists_rolled ⟨[], 0⟩ []
  have hactive : log.activeSegment.baseOffset = 1 := by
    rw [hlay.base_eq]
    simp [hone]
  have hlookup : log.index.lookup 1 = 0 := by
    have hentries : log.index.entries = [⟨sb₀.base, 0⟩, ⟨sb₁.base, 0⟩] := by
      simpa [aligned] using hlay.index_eq
    simp [OffsetIndex.lookup, hentries, hbase₀, hbase₁]
  have hsealed : log.sealed ≠ [] := by
    intro hnil
    have hsegments := hlay.sealed_eq
    simp [hnil, segmentsFrom] at hsegments
  have hmem : ((1 : ℤ), sb₁.bytes) ∈ [(0, sb₀.bytes), (1, sb₁.bytes)] := by simp
  refine ⟨log, _, sb₁.bytes, hrun, hsealed, hmem,
    read_returns_batch_of_active_segment ⟨[], 0⟩ [] 65536 (le_refl _) _ (by simp [largeBatch]) log _
      hrun (by omega) 1 _ hmem (by omega) (fun _ => hlookup) 1024 (Or.inr ⟨?_, ?_⟩)⟩
  · simp [batchesFrom, shortestRun]
  · have hlt := sb₁.length_lt
    simpa [batchesFrom] using hlt.trans (by norm_num)

/-- After two batches that do not share a segment the first one, acknowledged at offset 0,
is not what a read at offset 0 returns. -/
theorem read_misses_batch_of_sealed_segment :
    ∃ log stored out, smallLog.appendAll [largeBatch, largeBatch] = some (log, stored) ∧
      (∀ b ∈ [largeBatch, largeBatch], b.records ≠ []) ∧ (0, out) ∈ stored ∧
      log.startOffset ≤ 0 ∧
      ¬ ∃ data, (log.read 0 1024).data = some data ∧ data ≠ [] ∧ out <+: data := by
  obtain ⟨log, sb₀, sb₁, hrun, hlay, hone, hbase₀, hbase₁, hnext, hlen⟩ :=
    exists_rolled ⟨[], 0⟩ []
  refine ⟨log, _, sb₀.bytes, hrun, by simp [largeBatch], List.mem_cons_self,
    le_of_eq (startOffset_eq_zero hlay), ?_⟩
  rintro ⟨data, hdata, -, hpre⟩
  rw [read_zero_after_roll hlay (by omega) (by omega)] at hdata
  obtain rfl := Option.some.inj hdata
  -- the two batches differ in the base offset at their start
  refine not_isPrefix_of_base_ne hlen ?_ hpre
  rw [hbase₀, hbase₁]
  decide

/-! ## Offsets inside a batch -/

/-- The data starts with a batch whose header covers offset `s`. -/
def FirstBatchContains (data : Bytes) (s : ℤ) : Prop :=
  61 ≤ data.length ∧ intOfBe (slice data 0 8) ≤ s ∧
    s ≤ intOfBe (slice data 0 8) + intOfBe (slice data 23 4)

/-- INTERNAL: data that starts with a stored batch covers the offsets of that batch. -/
theorem firstBatchContains_iff {sb : StoredBatch} {data : Bytes} {s : ℤ}
    (hpre : sb.bytes <+: data) (hbase : toInt64 sb.base = sb.base) (hpos : 0 < sb.count)
    (hlt : sb.count < 2 ^ 31) :
    FirstBatchContains data s ↔ sb.base ≤ s ∧ s < sb.base + sb.count := by
  obtain ⟨more, rfl⟩ := hpre
  have hlen := sb.header_le
  have hdelta : intOfBe (slice sb.bytes 23 4) = sb.count - 1 := by
    rw [sb.lastOffsetDelta_eq, toInt32_of_fits (v := sb.count) (by omega) (by omega),
      toInt32_of_fits (by omega) (by omega)]
  unfold FirstBatchContains
  rw [slice_append_left _ _ _ _ (by omega), slice_append_left _ _ _ _ (by omega), sb.base_eq,
    hbase, hdelta, List.length_append]
  constructor
  · rintro ⟨-, hlo, hhi⟩
    omega
  · rintro ⟨hlo, hhi⟩
    omega

/-- PROPERTY: in a log of one segment, a read at offset `s` of the log returns data whose
first batch contains `s` if and only if a stored batch starts at `s`: offsets inside a
batch are skipped.
SOURCE: storage/partition_log.h:136-190 -/
theorem read_contains_offset_iff_batch_starts_there (tp : TopicPartition) (baseDir : Bytes)
    (segmentSize : ℕ) (bs : List RecordBatch)
    (hne : ∀ b ∈ bs, b.records ≠ []) (hcount : ∀ b ∈ bs, b.records.length < 2 ^ 31)
    (log : PartitionLog) (stored : List (ℤ × Bytes))
    (hrun : (PartitionLog.create tp baseDir segmentSize).appendAll bs = some (log, stored))
    (hone : log.sealed = []) (hmax : log.nextOffset < 2 ^ 63) (s : ℤ)
    (hlo : log.startOffset ≤ s) (hhi : s < log.nextOffset) (m : ℤ)
    (hfits : FetchFits m (batchesFrom stored s)) :
    (∃ data, (log.read s m).data = some data ∧ FirstBatchContains data s) ↔
      ∃ out, (s, out) ∈ stored := by
  obtain ⟨older, active, h, hcounts, hsingle⟩ := exists_runLayout hne hrun (Or.inr hone)
  obtain rfl := hsingle hone
  have hA : log.activeSegment.baseOffset = 0 := by simpa using h.layout.base_eq
  have hs : log.activeSegment.baseOffset ≤ s := by
    rw [startOffset_eq_zero h.layout] at hlo
    omega
  have hact : active ≠ [] := by
    rintro rfl
    have := h.layout.next_eq
    simp at this
    omega
  have hindex : IndexedAt log active s :=
    indexedAt_of_le h.layout hact hs fun heq => lookup_first h.layout (by omega)
  have hread := h.read_of_fetchFits hmax hs hindex hfits
  rw [h.batchesFrom_eq hs] at hread
  have hsmall : ∀ b ∈ active, b.count < 2 ^ 31 := by
    intro b hb
    have hmem : b.count ∈ bs.map (fun b => b.records.length) := by
      rw [← hcounts]
      exact List.mem_map_of_mem (by simpa using hb)
    obtain ⟨rb, hrb, hlen⟩ := List.mem_map.mp hmem
    rw [← hlen]
    exact hcount rb hrb
  constructor
  · rintro ⟨data, hdata, hcontains⟩
    rw [hread] at hdata
    -- the data starts with the first batch at `s` or later
    cases hfrom : fromOffset active s with
    | nil => simp [hfrom] at hdata
    | cons sb post =>
      rw [hfrom, if_neg (by simp; omega), Option.some.injEq] at hdata
      have hpre : sb.bytes <+: data := by
        rw [← hdata]
        exact head_shortestRun _ _ _ _
      have hsub : sb ∈ active := (List.dropWhile_sublist _).subset (by
        rw [show active.dropWhile _ = _ from hfrom]
        exact List.mem_cons_self)
      have hge : s ≤ sb.base := by
        have hnot := List.head?_dropWhile_not (fun b : StoredBatch => decide (b.base < s)) active
        rw [show active.dropWhile _ = _ from hfrom] at hnot
        simpa using hnot
      have hcov := (firstBatchContains_iff hpre (toInt64_base h.layout hmax hsub)
        (h.count_pos sb (by simpa using hsub)) (hsmall sb hsub)).mp hcontains
      refine ⟨sb.bytes, ?_⟩
      rw [← h.stored_eq, show s = sb.base by omega]
      exact List.mem_map.mpr ⟨sb, by simpa using hsub, rfl⟩
  · rintro ⟨out, hmem⟩
    obtain ⟨pre, sb, post, hsplit, rfl, rfl⟩ := h.exists_split hmem hs
    have hsub : sb ∈ active := by
      rw [hsplit]
      simp
    rw [h.fromOffset_eq hsplit, if_neg (by simp; omega), List.map_cons] at hread
    have hpos := h.count_pos sb (by simpa using hsub)
    refine ⟨_, hread, (firstBatchContains_iff (head_shortestRun _ _ _ _)
      (toInt64_base h.layout hmax hsub) hpos (hsmall sb hsub)).mpr ?_⟩
    omega

theorem twoBatches_isSome : (smallLog.appendAll [smallBatch, smallBatch]).isSome := by
  decide +kernel

/-- The log after two small batches, and what was stored. -/
def twoBatches : PartitionLog × List (ℤ × Bytes) :=
  (smallLog.appendAll [smallBatch, smallBatch]).get twoBatches_isSome

/-- The second of two batches starts at offset 2, and a read from there begins with it. -/
theorem read_contains_offset_iff_batch_starts_there_second :
    (∃ out, (2, out) ∈ twoBatches.2) ∧
      ∃ data, (twoBatches.1.read 2 16).data = some data ∧ FirstBatchContains data 2 := by
  have hstarts : ∃ out, (2, out) ∈ twoBatches.2 :=
    ⟨(twoBatches.2.map Prod.snd).getD 1 [], by decide +kernel⟩
  refine ⟨hstarts, (read_contains_offset_iff_batch_starts_there ⟨[], 0⟩ [] 65536
    [smallBatch, smallBatch] (by decide +kernel) (by decide +kernel) twoBatches.1 twoBatches.2
    (Option.some_get twoBatches_isSome).symm (by decide +kernel) (by decide +kernel) 2
    (by decide +kernel) (by decide +kernel) 16 (Or.inl ?_)).mpr hstarts⟩
  decide +kernel

/-- The second record of a two-record batch cannot be fetched by its offset. -/
theorem read_skips_offset_inside_batch :
    smallLog.appendAll [smallBatch] = some smallRun ∧ (∀ b ∈ [smallBatch], b.records ≠ []) ∧
    smallRun.1.sealed = [] ∧ smallRun.1.startOffset ≤ 1 ∧ 1 < smallRun.1.nextOffset ∧
    ¬ ∃ data, (smallRun.1.read 1 1024).data = some data ∧ FirstBatchContains data 1 := by
  have hread : (smallRun.1.read 1 1024).data = none := by decide +kernel
  refine ⟨smallLog_appendAll, smallBatch_ne, by decide +kernel, by decide +kernel,
    by decide +kernel, ?_⟩
  rintro ⟨data, hdata, -⟩
  rw [hread] at hdata
  exact absurd hdata (by simp)

end StrikeMQ.Analysis.AcknowledgedReads
