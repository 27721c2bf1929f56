import StrikeMQ.Interface.RecordLayout
import StrikeMQ.Model.PartitionLog
import StrikeMQ.Model.RecordWalk

/-!
# Sizes of decoded records that make sense

What a user of a decoded batch relies on: the reader only went forward, every record is as long as
the way from its first byte to the place behind it and no longer than the data, and in
`serialize_batch` no sum of the position and a size wraps.
-/

set_option autoImplicit false

namespace StrikeMQ.Interface

open StrikeMQ.Lib StrikeMQ.Model

/-- Along the records, the position stays in the buffer and its sum with a size does not wrap. -/
def SerializesSafely (cap : ℕ) : ℕ → List RecordSpan → Prop
  | pos, [] => pos ≤ cap
  | pos, s :: spans =>
    pos ≤ cap ∧ pos + s.totalSize < 2 ^ 32 ∧ SerializesSafely cap (s.posBehind cap pos) spans

/-- What has been decoded of `data`, with the positions of the reader, newest first. -/
structure SaneSizes (data : Bytes) (spans : List RecordSpan) (positions : List ℕ) : Prop where
  forward : (positions ++ [0]).Pairwise (· ≥ ·)
  sizes : ∀ s ∈ spans, s.totalSize ≤ data.length ∧ (s.totalSize : ℤ) = s.stop - s.data
  serialized : SerializesSafely appendBufferSize 61 spans

/-- What the decoder does with the data, from its first byte on. -/
def walkOf (m : Memory) (data : Bytes) :
    Option ((RecordBatch × List RecordSpan) × BinaryReader × List ℕ) :=
  KafkaDecoder.walkRecordBatch.run m ({ length := data.length }, [])

/-- The decoder reads only inside of the data: it does the same whatever stands around it, be it
that it comes to an end or that it comes to something that has no meaning. -/
def ReadsOnly (data : Bytes) : Prop :=
  ∀ m : Memory, m.Holds data → walkOf m data = walkOf (Memory.ofBytes data) data

/-- The data is decoded, and the sizes of the records make sense. -/
def DecodesSanely (data : Bytes) : Prop :=
  ∃ b spans r positions, walkOf (Memory.ofBytes data) data = some ((b, spans), r, positions) ∧
    SaneSizes data spans positions

/-- Things of these lengths are put one behind another from `pos` on, as long as they stay below
`cap`; no length that is tried takes the sum to `2 ^ 32`. -/
def SumsFit (cap : ℕ) : ℕ → List ℕ → Prop
  | _, [] => True
  | pos, n :: ns => pos + n < 2 ^ 32 ∧ SumsFit cap (if pos + n < cap then pos + n else pos) ns

/-- The data is not of magic 2, or it is a batch laid out field by field: with zeros behind it, if
the last record is longer than what is left, but with no record longer than all of it. The sums of
lengths are of interest only if the data has nearly `2 ^ 32` bytes. -/
def LaidOut (data : Bytes) : Prop :=
  data[16]? ≠ some 2 ∨
    ∃ d : BatchLayout, (Memory.padded data).HoldsAt 0 d.bytes ∧
      (∀ r ∈ d.records, r.bytes.length ≤ data.length) ∧
      SumsFit appendBufferSize 61 (d.records.map fun r => r.bytes.length)

end StrikeMQ.Interface
