import StrikeMQ.Lib.Decimal
import StrikeMQ.Analysis.AcknowledgedReads
import StrikeMQ.Analysis.WireStorage

/-!
# The files of a log's segments

A segment is a mapping of a file that is named after the offset the segment starts at. Two
segments that start at the same offset are two mappings of one file, and what is appended to
the second one overwrites the first.

Offsets count records, and segments are filled with bytes. A batch without records takes the
bytes of its header and no offset, so that a segment may be full while the next offset is still
the one it started at. Rolling it gives the second segment the file of the first. No other
append does that: the segments of a log start at different offsets if and only if no append
rolled a segment without records.
-/

set_option autoImplicit false

namespace StrikeMQ.Analysis.SegmentFiles

open StrikeMQ.Lib StrikeMQ.Model StrikeMQ.Interface
open StrikeMQ.Model.PartitionLog
open StrikeMQ.Model.KafkaDecoder (decodeRecordBatch)
open StrikeMQ.Analysis.BatchSerialization StrikeMQ.Analysis.LogLayout
open StrikeMQ.Analysis.RecordDecoding (exists_reads_messageSet exists_readsIf_decodeRecordBatch)
open StrikeMQ.Analysis.WireStorage (exists_bytes_of_decodes serializedSize_of_decodes)

/-- The active segment holds no record, and the batch does not fit behind what it holds.
SOURCE: storage/partition_log.h:125-129 -/
def RollsEmpty (log : PartitionLog) (b : RecordBatch) : Prop :=
  log.nextOffset = log.activeSegment.baseOffset ∧
    ∃ out, serializeBatch (assignOffsets log.nextOffset b) appendBufferSize = some out ∧
      log.activeSegment.maxSize < log.activeSegment.size + out.length

/-- No append of the run rolls a segment without records. -/
def NeverRollsEmpty : PartitionLog → List RecordBatch → Prop
  | _, [] => True
  | log, b :: bs =>
    ¬ RollsEmpty log b ∧ ∀ log' base, log.append b = some (log', base) → NeverRollsEmpty log' bs

/-! ## One append -/

/-- INTERNAL: the file and the first offset of each segment. -/
def files (log : PartitionLog) : List (Bytes × ℤ) :=
  log.segments.map fun s => (s.path, s.baseOffset)

theorem map_baseOffset_segments (log : PartitionLog) :
    log.segments.map LogSegment.baseOffset = (files log).map Prod.snd := by
  rw [files, List.map_map]
  rfl

theorem map_path_segments (log : PartitionLog) :
    log.segments.map LogSegment.path = (files log).map Prod.fst := by
  rw [files, List.map_map]
  rfl

theorem append_file (s : LogSegment) (buf : Bytes) :
    ((s.append buf).1.path, (s.append buf).1.baseOffset) = (s.path, s.baseOffset) := by
  rcases append_cases s buf with ⟨-, h⟩ | ⟨-, h⟩ <;> rw [h]

/-- INTERNAL: an append keeps the segments, and adds one if the bytes do not fit. -/
theorem files_commit (log : PartitionLog) (b : RecordBatch) (buf : Bytes) :
    files (log.commit b buf) =
      files log ++ if log.activeSegment.maxSize < log.activeSegment.size + buf.length then
        [(segmentPath log.baseDir log.nextOffset, log.nextOffset)] else [] := by
  rcases append_cases log.activeSegment buf with ⟨hfit, happ⟩ | ⟨hfull, happ⟩
  · have hnn : ¬ ((log.activeSegment.size : ℤ) < 0) := by omega
    rw [if_neg (by omega), List.append_nil]
    simp only [files, segments, commit, appendBytes, happ, if_neg hnn, List.map_append,
      List.map_cons, List.map_nil]
  · have hactive : (log.commit b buf).activeSegment =
        (log.rollSegment.activeSegment.append buf).1 := by
      unfold commit appendBytes
      simp only [happ]
      rfl
    have hsealed : (log.commit b buf).sealed = log.segments := by
      unfold commit appendBytes
      simp only [happ]
      rfl
    rw [if_pos hfull]
    simp only [files, segments, hsealed, hactive, List.map_append, List.map_cons, List.map_nil,
      append_file]
    rfl

theorem baseDir_commit (log : PartitionLog) (b : RecordBatch) (buf : Bytes) :
    (log.commit b buf).baseDir = log.baseDir := by
  unfold commit appendBytes
  rcases append_cases log.activeSegment buf with ⟨-, happ⟩ | ⟨-, happ⟩
  · simp only [happ]
    split <;> rfl
  · simp only [happ]
    rfl

/-- INTERNAL: the log invariant: each segment's file is named after its first offset, and no
segment starts behind the active one, nor that one behind the next offset. -/
structure Ascending (log : PartitionLog) : Prop where
  path_eq : ∀ f ∈ files log, f.1 = segmentPath log.baseDir f.2
  le_active : ∀ f ∈ files log, f.2 ≤ log.activeSegment.baseOffset
  active_le : log.activeSegment.baseOffset ≤ log.nextOffset

theorem ascending_create (tp : TopicPartition) (baseDir : Bytes) (segmentSize : ℕ) :
    Ascending (create tp baseDir segmentSize) := by
  refine ⟨?_, ?_, le_refl _⟩
  · intro f hf
    obtain rfl := List.mem_singleton.mp hf
    rfl
  · intro f hf
    obtain rfl := List.mem_singleton.mp hf
    exact le_refl _

theorem getLast?_files (log : PartitionLog) :
    (files log).getLast? = some (log.activeSegment.path, log.activeSegment.baseOffset) := by
  simp [files, segments]

/-- INTERNAL: **the step lemma**: an append keeps the invariant. -/
theorem Ascending.append {log log' : PartitionLog} {b : RecordBatch} {base : ℤ}
    (h : Ascending log) (happ : log.append b = some (log', base)) : Ascending log' := by
  obtain ⟨rfl, out, -, rfl⟩ := append_eq_some_iff.mp happ
  have hfiles := files_commit log (assignOffsets log.nextOffset b) out
  have hnext := nextOffset_commit log log.nextOffset b out
  have hdir := baseDir_commit log (assignOffsets log.nextOffset b) out
  have hlast := getLast?_files (log.commit (assignOffsets log.nextOffset b) out)
  by_cases hroll : log.activeSegment.maxSize < log.activeSegment.size + out.length
  · rw [if_pos hroll] at hfiles
    rw [hfiles, List.getLast?_concat, Option.some.injEq, Prod.mk.injEq] at hlast
    refine ⟨?_, ?_, ?_⟩
    · intro f hf
      rw [hfiles, List.mem_append, List.mem_singleton] at hf
      rw [hdir]
      rcases hf with hf | rfl
      · exact h.path_eq f hf
      · rfl
    · intro f hf
      rw [hfiles, List.mem_append, List.mem_singleton] at hf
      rw [← hlast.2]
      rcases hf with hf | rfl
      · exact le_trans (h.le_active f hf) h.active_le
      · exact le_refl _
    · rw [← hlast.2, hnext]
      omega
  · rw [if_neg hroll, List.append_nil] at hfiles
    rw [hfiles, getLast?_files, Option.some.injEq, Prod.mk.injEq] at hlast
    have hle := h.active_le
    refine ⟨?_, ?_, ?_⟩
    · rw [hfiles, hdir]
      exact h.path_eq
    · rw [hfiles, ← hlast.2]
      exact h.le_active
    · rw [← hlast.2, hnext]
      omega

/-- INTERNAL: an append gives two segments one first offset exactly if it rolls a segment
without records. -/
theorem nodup_append_iff {log log' : PartitionLog} {b : RecordBatch} {base : ℤ}
    (h : Ascending log) (happ : log.append b = some (log', base)) :
    ((files log').map Prod.snd).Nodup ↔ ((files log).map Prod.snd).Nodup ∧ ¬ RollsEmpty log b := by
  obtain ⟨rfl, out, hser, rfl⟩ := append_eq_some_iff.mp happ
  have hrolls : RollsEmpty log b ↔ log.nextOffset = log.activeSegment.baseOffset ∧
      log.activeSegment.maxSize < log.activeSegment.size + out.length := by
    simp only [RollsEmpty, hser, Option.some.injEq, exists_eq_left']
  rw [files_commit, hrolls]
  by_cases hroll : log.activeSegment.maxSize < log.activeSegment.size + out.length
  · have hmem : log.nextOffset ∈ (files log).map Prod.snd ↔
        log.nextOffset = log.activeSegment.baseOffset := by
      constructor
      · intro hin
        obtain ⟨f, hf, heq⟩ := List.mem_map.mp hin
        have hle := h.le_active f hf
        exact le_antisymm (heq ▸ hle) h.active_le
      · intro heq
        rw [heq]
        exact List.mem_map_of_mem (List.mem_of_getLast? (getLast?_files log))
    rw [if_pos hroll, List.map_append, List.map_singleton, ← List.concat_eq_append,
      List.nodup_concat, hmem]
    tauto
  · rw [if_neg hroll, List.append_nil]
    tauto

/-! ## Runs -/

/-- INTERNAL: **the run lemma**: the appends of a run give two segments one first offset exactly
if one of them rolls a segment without records. -/
theorem nodup_appendAll_iff {log log' : PartitionLog} {bs : List RecordBatch}
    {stored : List (ℤ × Bytes)} (h : Ascending log)
    (hrun : log.appendAll bs = some (log', stored)) :
    Ascending log' ∧ (((files log').map Prod.snd).Nodup ↔
      ((files log).map Prod.snd).Nodup ∧ NeverRollsEmpty log bs) := by
  induction bs generalizing log stored with
  | nil =>
    obtain ⟨rfl, -⟩ := appendAll_nil_iff.mp hrun
    exact ⟨h, by simp [NeverRollsEmpty]⟩
  | cons b bs ih =>
    obtain ⟨log₁, base, out, rest, happ, -, hrest, -⟩ := appendAll_cons_iff.mp hrun
    obtain ⟨hasc, hnodup⟩ := ih (h.append happ) hrest
    refine ⟨hasc, ?_⟩
    have hnext : (∀ log' base', log.append b = some (log', base') → NeverRollsEmpty log' bs) ↔
        NeverRollsEmpty log₁ bs := by
      constructor
      · intro hall
        exact hall log₁ base happ
      · intro hone log' base' happ'
        cases happ.symm.trans happ'
        exact hone
    rw [hnodup, nodup_append_iff h happ, NeverRollsEmpty, hnext, and_assoc]

/-- INTERNAL: segments of one log have one file exactly if they start at one offset. -/
theorem Ascending.nodup_path_iff {log : PartitionLog} (h : Ascending log) :
    ((files log).map Prod.fst).Nodup ↔ ((files log).map Prod.snd).Nodup := by
  have hpaths : (files log).map Prod.fst =
      ((files log).map Prod.snd).map (segmentPath log.baseDir) := by
    rw [List.map_map]
    exact List.map_congr_left h.path_eq
  have hinj : Function.Injective (segmentPath log.baseDir) := by
    intro v w heq
    unfold segmentPath at heq
    exact decimal_injective (List.append_cancel_left (List.append_cancel_right heq))
  rw [hpaths, List.nodup_map_iff hinj]

/-- PROPERTY: **after any appends to a new log, no two segments start at the same offset, and no
two are mappings of one file, if and only if none of the appends rolled a segment that held no
record.**
SOURCE: storage/partition_log.h:108-134, 198-204 -/
theorem segments_share_no_file_iff (tp : TopicPartition) (baseDir : Bytes) (segmentSize : ℕ)
    (bs : List RecordBatch) (log : PartitionLog) (stored : List (ℤ × Bytes))
    (hrun : (create tp baseDir segmentSize).appendAll bs = some (log, stored)) :
    ((log.segments.map LogSegment.baseOffset).Nodup ↔
        NeverRollsEmpty (create tp baseDir segmentSize) bs) ∧
      ((log.segments.map LogSegment.path).Nodup ↔
        NeverRollsEmpty (create tp baseDir segmentSize) bs) := by
  obtain ⟨hasc, hnodup⟩ := nodup_appendAll_iff (ascending_create tp baseDir segmentSize) hrun
  have hone : ((files (create tp baseDir segmentSize)).map Prod.snd).Nodup :=
    List.nodup_singleton _
  rw [map_baseOffset_segments, map_path_segments, hasc.nodup_path_iff, hnodup]
  tauto

/-- The second of two large batches rolls a segment that holds a record, and the two segments have
files of their own. -/
theorem segments_share_no_file_iff_two_batches :
    ∃ log stored, (create ⟨ascii "t", 0⟩ (ascii "data") 65536).appendAll
        [AcknowledgedReads.largeBatch, AcknowledgedReads.largeBatch] = some (log, stored) ∧
      log.segments.map LogSegment.baseOffset = [0, 1] ∧
      NeverRollsEmpty (create ⟨ascii "t", 0⟩ (ascii "data") 65536)
        [AcknowledgedReads.largeBatch, AcknowledgedReads.largeBatch] ∧
      (log.segments.map LogSegment.path).Nodup := by
  obtain ⟨log, sb₀, sb₁, hrun, hlay, hone, -⟩ :=
    AcknowledgedReads.exists_rolled ⟨ascii "t", 0⟩ (ascii "data")
  have hsealed : log.sealed.map LogSegment.baseOffset = [0] := by
    have hsegments := congrArg (List.map Prod.fst) hlay.sealed_eq
    simpa [segmentsFrom] using hsegments
  have hactive : log.activeSegment.baseOffset = 1 := by
    rw [hlay.base_eq]
    simp [hone]
  have hbases : log.segments.map LogSegment.baseOffset = [0, 1] := by
    rw [segments, List.map_append, hsealed, List.map_singleton, hactive]
    rfl
  obtain ⟨hoffsets, hfiles⟩ := segments_share_no_file_iff _ _ _ _ log _ hrun
  have hnever := hoffsets.mp (by rw [hbases]; decide)
  exact ⟨log, _, hrun, hbases, hnever, hfiles.mpr hnever⟩

/-! ## A file that is mapped twice -/

/-- A message set of magic 0. -/
def oldMessageSet : Bytes :=
  List.replicate 17 0

/-- A batch of one record, with a value of 65440 bytes. -/
def largeBatch : WireBatch where
  records := [{ value := some (List.replicate 65440 0) }]

theorem length_valueRecord {v : Bytes} (hv : v.length = 65440) :
    (WireRecord.bytes { value := some v }).length = 65451 := by
  have hlength : (varint (65440 : ℕ)).length = 3 := by decide
  have hrecord : (varint (65448 : ℕ)).length = 3 := by decide
  have hrest : (varlong 0).length = 1 ∧ (varint 0).length = 1 ∧ (varint (-1)).length = 1 := by
    decide
  obtain ⟨hdelta, hzero, hnull⟩ := hrest
  have hbody : (WireRecord.body { value := some v }).length = 65448 := by
    simp only [WireRecord.body, varBytes, varArray, List.length_append, length_beInt, hv,
      List.length_nil, List.flatMap_nil, Nat.cast_zero, wordOf_zero, hlength, hdelta, hzero,
      hnull]
  rw [WireRecord.bytes, List.length_append, hbody, hrecord]

theorem length_largeBatch : largeBatch.bytes.length = 65512 := by
  have hrecords : (largeBatch.records.flatMap WireRecord.bytes).length = 65451 := by
    rw [largeBatch, List.flatMap_singleton]
    exact length_valueRecord List.length_replicate
  simp only [WireBatch.bytes, wireBytes, WireBatch.body, wireArray, List.length_append,
    length_beInt, hrecords]

/-- INTERNAL: a batch without records that fits the active segment fills it and takes no offset. -/
theorem commit_recordless {log : PartitionLog} {b : RecordBatch} {buf : Bytes}
    (hrecords : b.records = [])
    (hfit : log.activeSegment.size + buf.length ≤ log.activeSegment.maxSize) :
    (log.commit (assignOffsets log.nextOffset b) buf).nextOffset = log.nextOffset ∧
      (log.commit (assignOffsets log.nextOffset b) buf).activeSegment.size =
        log.activeSegment.size + buf.length ∧
      (log.commit (assignOffsets log.nextOffset b) buf).activeSegment.maxSize =
        log.activeSegment.maxSize := by
  refine ⟨?_, ?_⟩
  · rw [nextOffset_commit, hrecords, List.length_nil, Nat.cast_zero, add_zero]
  · rcases commit_cases log (assignOffsets log.nextOffset b) buf with ⟨-, hlog⟩ | ⟨hfull, -⟩
    · rw [hlog]
      exact ⟨List.length_append, rfl⟩
    · omega

/-- A message set, of which no record is read, and a batch behind it that does not fit the
first segment: the second segment is the first one's file. -/
theorem recordless_segment_shares_its_file :
    ∃ empty full : RecordBatch,
      (∃ r, decodeRecordBatch.run (Memory.ofBytes oldMessageSet) { length := 17 } =
        some (empty, r)) ∧
      (∃ r, decodeRecordBatch.run (Memory.ofBytes largeBatch.bytes)
        { length := largeBatch.bytes.length } = some (full, r)) ∧
      ∃ log stored, (create ⟨ascii "t", 0⟩ (ascii "data") 65536).appendAll [empty, full] =
          some (log, stored) ∧
        log.segments.map LogSegment.path = [ascii "data/t-0/0.log", ascii "data/t-0/0.log"] := by
  obtain ⟨empty, hempty, hreads⟩ := exists_reads_messageSet
    (m := Memory.ofBytes oldMessageSet) (s := oldMessageSet) (by decide) (by decide)
  obtain ⟨full, hfull, hreads'⟩ := exists_readsIf_decodeRecordBatch
    (m := Memory.ofBytes largeBatch.bytes) (w := largeBatch) (by rw [length_largeBatch]; norm_num)
  have hset := hreads 0 (Memory.holdsAt_zero (by decide) (Memory.holds_ofBytes _))
    { length := 17 } rfl
  have hbatch := (hreads' 0).1 (by decide) (Memory.holdsAt_zero
    (by rw [length_largeBatch]; decide) (Memory.holds_ofBytes _))
    { length := largeBatch.bytes.length } rfl
  refine ⟨empty, full, ⟨_, hset⟩, ⟨_, hbatch⟩, ?_⟩
  have hempty61 : empty.serializedSize = 61 := by
    rw [RecordBatch.serializedSize, hempty]
    rfl
  have hdata := exists_bytes_of_decodes hfull
  have hsize := (serializedSize_of_decodes hfull).trans length_largeBatch
  obtain ⟨log₁, out₁, happ₁, hser₁, hlen₁⟩ := exists_append_of_serializedSize_lt
    (create ⟨ascii "t", 0⟩ (ascii "data") 65536) (b := empty) (by simp [hempty]) (by omega)
  obtain ⟨log₂, out₂, happ₂, hser₂, hlen₂⟩ := exists_append_of_serializedSize_lt log₁ hdata
    (by omega)
  refine ⟨log₂, _, appendAll_cons_iff.mpr ⟨log₁, _, out₁, _, happ₁, hser₁,
    appendAll_cons_iff.mpr ⟨log₂, _, out₂, _, happ₂, hser₂, rfl, rfl⟩, rfl⟩, ?_⟩
  obtain ⟨-, _, hout₁, rfl⟩ := append_eq_some_iff.mp happ₁
  obtain ⟨-, _, hout₂, rfl⟩ := append_eq_some_iff.mp happ₂
  obtain rfl := Option.some.inj (hser₁.symm.trans hout₁)
  obtain rfl := Option.some.inj (hser₂.symm.trans hout₂)
  have hfit : (create ⟨ascii "t", 0⟩ (ascii "data") 65536).activeSegment.size + out₁.length ≤
      (create ⟨ascii "t", 0⟩ (ascii "data") 65536).activeSegment.maxSize := by
    rw [hlen₁, hempty61]
    decide
  obtain ⟨hnext, hused, hmax⟩ := commit_recordless hempty hfit
  have hmax₀ : (create ⟨ascii "t", 0⟩ (ascii "data") 65536).activeSegment.maxSize = 65536 := rfl
  rw [map_path_segments, files_commit, files_commit, if_neg (not_lt.mpr hfit),
    if_pos (by omega), hnext, baseDir_commit]
  decide +kernel

end StrikeMQ.Analysis.SegmentFiles
