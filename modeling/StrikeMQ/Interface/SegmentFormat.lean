import StrikeMQ.Model.PartitionLog

/-!
# What the bytes of a log say

The format of segments, stated on bytes and header fields alone: a segment is a concatenation of
batches, each as long as its header says, and the offsets in the headers run through all
segments without a gap.
-/

set_option autoImplicit false

namespace StrikeMQ.Interface

open StrikeMQ.Lib StrikeMQ.Model

/-- SOURCE: storage/partition_log.h:223 -/
def headerBaseOffset (batch : Bytes) : ℤ :=
  intOfBe (slice batch 0 8)

/-- SOURCE: storage/partition_log.h:224, 244-247 -/
def headerBatchLength (batch : Bytes) : ℤ :=
  intOfBe (slice batch 8 4)

/-- SOURCE: storage/partition_log.h:235 -/
def headerRecordCount (batch : Bytes) : ℤ :=
  intOfBe (slice batch 57 4)

/-- Batches with the right lengths, whose offsets run from `o` to `o'`: each starts where the
record counts of the ones before it lead. -/
def BatchRun : ℤ → List Bytes → ℤ → Prop
  | o, [], o' => o' = o
  | o, b :: bs, o' =>
    12 < b.length ∧ headerBatchLength b = (b.length - 12 : ℕ) ∧ headerBaseOffset b = o ∧
      BatchRun (o + headerRecordCount b) bs o'

/-- Segments made of the batches in `parts`, whose offsets run from `o` to `o'`: each has the
offset of its first batch as its own, or the one that its first batch will have. -/
def SegmentRun : ℤ → List LogSegment → List (List Bytes) → ℤ → Prop
  | o, [], [], o' => o' = o
  | o, s :: ss, p :: ps, o' =>
    s.baseOffset = o ∧ s.data = p.flatten ∧ ∃ mid, BatchRun o p mid ∧ SegmentRun mid ss ps o'
  | _, _, _, _ => False

end StrikeMQ.Interface
