import StrikeMQ.Model.Types

/-!
# The partition log

`storage/partition_log.h`: a partition is a list of memory-mapped segments, of which the
last one is active, and one sparse index over all of them. `append` serializes a batch
into a 64 KiB stack buffer and copies it to the active segment, rolling to a new segment
when it does not fit; `read` looks the start offset up in the index and scans batch
headers of the active segment from there.

A segment is modelled by its used bytes `[0, write_offset_)`; no read looks past them.
Byte positions are plain naturals: `ftruncate` takes a signed size and the constructor
throws when it fails, so a segment is smaller than `2^63` bytes and no sum of a position
and a length wraps the 64-bit word. Offsets are integers and are narrowed to 64 bits
where a header is written or read. A `memcpy` past the end of the stack buffer has no
meaning in the source; it is the outcome `none`.
-/

set_option autoImplicit false

namespace StrikeMQ.Model

open StrikeMQ.Lib

/-- `data` is what the mapped file holds, as long as no other segment has the same `path`.
SOURCE: storage/partition_log.h:19-85 -/
structure LogSegment where
  path : Bytes
  baseOffset : ℤ
  maxSize : ℕ
  data : Bytes := []
  deriving DecidableEq, Repr

namespace LogSegment

/-- `write_offset_`.
SOURCE: storage/partition_log.h:75 -/
def size (s : LogSegment) : ℕ :=
  s.data.length

/-- Copies `buf` behind the used bytes and returns its position, or `-1` when it does not
fit.
SOURCE: storage/partition_log.h:59-65 -/
def append (s : LogSegment) (buf : Bytes) : LogSegment × ℤ :=
  if s.size + buf.length > s.maxSize then (s, -1)
  else ({ s with data := s.data ++ buf }, s.size)

/-- A pointer to the bytes from `offset` on, null when `length` of them are not there yet.
SOURCE: storage/partition_log.h:67-70 -/
def read (s : LogSegment) (offset length : ℕ) : Option Bytes :=
  if offset + length > s.size then none else some (s.data.drop offset)

end LogSegment

/-- SOURCE: storage/partition_log.h:88 -/
structure IndexEntry where
  offset : ℤ
  position : ℕ
  deriving DecidableEq, Repr

/-- SOURCE: storage/partition_log.h:87-98 -/
structure OffsetIndex where
  entries : List IndexEntry := []
  deriving DecidableEq, Repr

namespace OffsetIndex

/-- The entry before the `lower_bound` of `target`, the first entry when there is none
before it. The range is partitioned by `e.offset < target`, since entries are pushed with
non-decreasing offsets, so the bound is where the leading run of smaller entries ends.
SOURCE: storage/partition_log.h:90-96 -/
def lookup (ix : OffsetIndex) (target : ℤ) : ℕ :=
  match ix.entries with
  | [] => 0
  | e :: _ =>
    match (ix.entries.takeWhile fun e => e.offset < target).getLast? with
    | none => e.position
    | some e' => e'.position

/-- SOURCE: storage/partition_log.h:97 -/
def add (ix : OffsetIndex) (offset : ℤ) (position : ℕ) : OffsetIndex :=
  { entries := ix.entries ++ [⟨offset, position⟩] }

end OffsetIndex

/-- SOURCE: storage/partition_log.h:100-104 -/
structure ReadResult where
  data : Option Bytes := none
  highWatermark : ℤ := -1
  deriving DecidableEq, Repr

/-- The range's `size`. -/
def ReadResult.size (r : ReadResult) : ℕ :=
  (r.data.getD []).length

/-- `sealed` are the segments before the active one, oldest first.
SOURCE: storage/partition_log.h:106-115, 252-259 -/
structure PartitionLog where
  tp : TopicPartition
  baseDir : Bytes
  segmentSize : ℕ
  nextOffset : ℤ := 0
  sealed : List LogSegment := []
  activeSegment : LogSegment
  index : OffsetIndex := {}
  deriving DecidableEq, Repr

/-- The 64 KiB stack buffer `append` serializes into.
SOURCE: storage/partition_log.h:125 -/
def appendBufferSize : ℕ := 65536

namespace PartitionLog

/-- The file of the segment that starts at `off`: `base_dir_ / (off + ".log")`.
SOURCE: storage/partition_log.h:200 -/
def segmentPath (baseDir : Bytes) (off : ℤ) : Bytes :=
  baseDir ++ ascii "/" ++ decimal off ++ ascii ".log"

/-- SOURCE: storage/partition_log.h:108-115 -/
def create (tp : TopicPartition) (baseDir : Bytes) (segmentSize : ℕ) : PartitionLog :=
  let dir := baseDir ++ ascii "/" ++ tp.topic ++ ascii "-" ++ decimal tp.partition
  { tp := tp, baseDir := dir, segmentSize := segmentSize
    activeSegment := ⟨segmentPath dir 0, 0, segmentSize, []⟩ }

/-- `segments_`, oldest first. -/
def segments (log : PartitionLog) : List LogSegment :=
  log.sealed ++ [log.activeSegment]

/-- SOURCE: storage/partition_log.h:193 -/
def startOffset (log : PartitionLog) : ℤ :=
  match log.segments with
  | [] => 0
  | s :: _ => s.baseOffset

/-- SOURCE: storage/partition_log.h:194 -/
def highWatermark (log : PartitionLog) : ℤ :=
  log.nextOffset

/-- SOURCE: storage/partition_log.h:198-204 -/
def rollSegment (log : PartitionLog) : PartitionLog :=
  { log with
    sealed := log.sealed ++ [log.activeSegment]
    activeSegment :=
      ⟨segmentPath log.baseDir log.nextOffset, log.nextOffset, log.segmentSize, []⟩ }

/-- The header as first written, with zeros for the batch length and the CRC.
`lastOffsetDelta` and `recordCount` come from `records.size()`.
SOURCE: storage/partition_log.h:223-235 -/
def serializeHeader (b : RecordBatch) : Bytes :=
  beInt 8 b.baseOffset ++ beInt 4 0 ++ beInt 4 b.partitionLeaderEpoch ++ beInt 1 b.magic ++
  beInt 4 0 ++ beInt 2 b.attributes ++ beInt 4 (toInt32 b.records.length - 1) ++
  beInt 8 b.firstTimestamp ++ beInt 8 b.maxTimestamp ++ beInt 8 b.producerId ++
  beInt 2 b.producerEpoch ++ beInt 4 b.baseSequence ++
  beInt 4 (toInt32 b.records.length)

/-- One round of the record loop. The sum in the guard is a `uint32_t`, so it may wrap and
let a copy through that does not fit the buffer.
SOURCE: storage/partition_log.h:237-242 -/
def serializeRecord (cap : ℕ) (buf : Bytes) (r : Record) : Option Bytes :=
  if r.data.isSome ∧ r.totalSize > 0 ∧ toUInt32 (buf.length + r.totalSize : ℕ) < cap then
    if buf.length + r.totalSize ≤ cap then some (buf ++ r.raw) else none
  else some buf

/-- Overwrites the batch length at byte 8.
SOURCE: storage/partition_log.h:244-247 -/
def patchBatchLength (buf : Bytes) : Bytes :=
  buf.take 8 ++ beInt 4 (buf.length - 12 : ℕ) ++ buf.drop 12

/-- SOURCE: storage/partition_log.h:206-250 -/
def serializeBatch (b : RecordBatch) (cap : ℕ) : Option Bytes := do
  let buf ← b.records.foldlM (serializeRecord cap) (serializeHeader b)
  return patchBatchLength buf

/-- The offsets `append` gives a batch before it serializes it.
SOURCE: storage/partition_log.h:119-123 -/
def assignOffsets (base : ℤ) (b : RecordBatch) : RecordBatch :=
  { b with
    baseOffset := base
    records := b.records.mapIdx fun i r => { r with offset := base + i }
    lastOffset := base + b.records.length - 1 }

/-- Copies a serialized batch to the active segment, to a new one when it does not fit.
SOURCE: storage/partition_log.h:128-129 -/
def appendBytes (log : PartitionLog) (buf : Bytes) : PartitionLog × ℤ :=
  let (seg, off) := log.activeSegment.append buf
  if off < 0 then
    let rolled := log.rollSegment
    let (seg', off') := rolled.activeSegment.append buf
    ({ rolled with activeSegment := seg' }, off')
  else ({ log with activeSegment := seg }, off)

/-- Stores the serialized bytes of `batch`, adds an index entry when they start at a
multiple of 4096, and moves the next offset behind the batch.
SOURCE: storage/partition_log.h:128-132 -/
def commit (log : PartitionLog) (batch : RecordBatch) (buf : Bytes) : PartitionLog :=
  let (stored, byteOff) := log.appendBytes buf
  let index :=
    if byteOff.tmod 4096 = 0 then stored.index.add batch.baseOffset byteOff.toNat
    else stored.index
  { stored with index := index, nextOffset := batch.lastOffset + 1 }

/-- SOURCE: storage/partition_log.h:117-134 -/
def append (log : PartitionLog) (batch : RecordBatch) : Option (PartitionLog × ℤ) := do
  let baseOffset := log.nextOffset
  let batch := assignOffsets baseOffset batch
  let buf ← serializeBatch batch appendBufferSize
  return (log.commit batch buf, baseOffset)

/-- The scan's loop variables. -/
structure Scan where
  scan : ℕ
  startPos : ℕ
  foundStart : Bool := false
  deriving DecidableEq, Repr

/-- The scan over batch headers. Each round that does not leave the loop advances by at
least 13 bytes, so `seg.length` rounds are enough.
SOURCE: storage/partition_log.h:157-183 -/
def scanLoop (seg : Bytes) (startOffset maxBytes : ℤ) : ℕ → Scan → Scan
  | 0, st => st
  | fuel + 1, st =>
    if st.scan + 12 ≤ seg.length then
      let batchBase := intOfBe (slice seg st.scan 8)
      let batchLen := intOfBe (slice seg (st.scan + 8) 4)
      if batchLen ≤ 0 then st
      else
        let total := 12 + batchLen.toNat
        if st.scan + total > seg.length then st
        else if !st.foundStart && !decide (batchBase ≥ startOffset) then
          -- this batch is before start_offset: skip it
          scanLoop seg startOffset maxBytes fuel
            { st with scan := st.scan + total, startPos := st.scan + total }
        else
          let startPos := if st.foundStart then st.startPos else st.scan
          let st' : Scan := ⟨st.scan + total, startPos, true⟩
          if toInt32 (st'.scan - startPos : ℕ) ≥ maxBytes then st'
          else scanLoop seg startOffset maxBytes fuel st'
    else st

/-- SOURCE: storage/partition_log.h:136-190 -/
def read (log : PartitionLog) (startOffset maxBytes : ℤ) : ReadResult :=
  let result : ReadResult := { highWatermark := log.highWatermark }
  if startOffset ≥ log.nextOffset then result
  else
    let pos := log.index.lookup startOffset
    let segSize := log.activeSegment.size
    if segSize = 0 ∨ pos ≥ segSize then result
    else
      match log.activeSegment.read 0 (toUInt32 segSize) with
      | none => result
      | some seg =>
        let st := scanLoop seg startOffset maxBytes segSize ⟨pos, pos, false⟩
        if st.scan > st.startPos then
          { result with
            data := some (slice seg st.startPos (toUInt32 (st.scan - st.startPos : ℕ))) }
        else result

/-- A sequence of `append` calls, with the base offset each returned and the bytes it
serialized. -/
def appendAll (log : PartitionLog) :
    List RecordBatch → Option (PartitionLog × List (ℤ × Bytes))
  | [] => some (log, [])
  | b :: bs => do
    let (log₁, base) ← log.append b
    let out ← serializeBatch (assignOffsets base b) appendBufferSize
    let (log₂, stored) ← log₁.appendAll bs
    return (log₂, (base, out) :: stored)

end PartitionLog

end StrikeMQ.Model
