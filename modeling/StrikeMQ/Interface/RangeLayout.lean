import StrikeMQ.Lib.Varint

/-!
# Ranges that a view can show

What the bytes of a range must be like so that a view of some number of messages can go through
them. A range is a row of batches, each as long as the number in its head says; the view does not
look at what follows the last whole one. Behind the 61 bytes of its header a batch holds records, as
many as it says at the most. A varint has at most ten groups, and only the end of the batch may cut
it short. A key or a value has as many bytes as the number before it says, or is not there.

A number may also lead behind the end of the batch, and the view then leaves the batch. For that to
be noticed, the place that the number leads to has to lie behind the end of the batch also modulo
`2^32`. Everything else here is plain arithmetic on lists of bytes.
-/

set_option autoImplicit false

namespace StrikeMQ.Interface

open StrikeMQ.Lib

namespace RangeLayout

/-- The bytes begin with a varint of this value; what is left behind it. -/
inductive Varint : Bytes → ℤ → Bytes → Prop
  | whole {groups rest : Bytes} (hends : EndsWith lastGroup groups) (hshort : groups.length ≤ 10) :
    Varint (groups ++ rest) (ofZigzag 8 (ofGroups 8 0 groups)) rest
  | cut {groups : Bytes} (hmore : ∀ b ∈ groups, lastGroup b = false)
      (hshort : groups.length ≤ 10) :
    Varint groups (ofZigzag 8 (ofGroups 8 0 groups)) []

/-! In the following, `stop` is the place in the range where the batch ends. What is left of the
bytes of a batch is `none` where they do not hold what is looked for. -/

/-- A key or a value behind its length. -/
inductive Sized (stop : ℕ) : Bytes → Option Bytes → Prop
  | missing {bs rest : Bytes} {n : ℤ} (length : Varint bs n rest) (h : n ≤ 0) :
    Sized stop bs (some rest)
  | whole {bs content rest : Bytes} (length : Varint bs content.length (content ++ rest))
      (h : content ≠ []) :
    Sized stop bs (some rest)
  | cut {bs rest : Bytes} {n : ℤ} (length : Varint bs n rest) (h : rest.length < n)
      (hnoticed : stop < ((stop - rest.length : ℕ) + n) % 2 ^ 32) :
    Sized stop bs none

/-- The length of a record, its attributes and two deltas. -/
inductive Head : Bytes → Option Bytes → Prop
  | cut {bs rest : Bytes} {n : ℤ} (length : Varint bs n rest) (h : rest.length ≤ 1) :
    Head bs none
  | whole {bs bs₁ bs₂ rest : Bytes} {n timestamp offset : ℤ} {attributes : UInt8}
      (length : Varint bs n (attributes :: bs₁)) (h : bs₁ ≠ [])
      (timestampDelta : Varint bs₁ timestamp bs₂) (offsetDelta : Varint bs₂ offset rest) :
    Head bs (some rest)

/-- A record up to the number of its headers. -/
inductive Record (stop : ℕ) : Bytes → Option Bytes → Prop
  | noHead {bs : Bytes} (head : Head bs none) : Record stop bs none
  | noKey {bs bs₁ : Bytes} (head : Head bs (some bs₁)) (key : Sized stop bs₁ none) :
    Record stop bs none
  | noValue {bs bs₁ bs₂ : Bytes} (head : Head bs (some bs₁)) (key : Sized stop bs₁ (some bs₂))
      (value : Sized stop bs₂ none) :
    Record stop bs none
  | whole {bs bs₁ bs₂ bs₃ rest : Bytes} {headers : ℤ} (head : Head bs (some bs₁))
      (key : Sized stop bs₁ (some bs₂)) (value : Sized stop bs₂ (some bs₃))
      (headerCount : Varint bs₃ headers rest) :
    Record stop bs (some rest)

/-- The records of a batch: of at most `left` ones and at most `room` ones, `shown` are whole. -/
inductive Records (stop : ℕ) : ℕ → ℕ → Bytes → ℕ → Prop
  | over {left room : ℕ} {bs : Bytes} (h : left = 0 ∨ room = 0 ∨ bs = []) :
    Records stop left room bs 0
  | last {left room : ℕ} {bs : Bytes} (h : bs ≠ []) (record : Record stop bs none) :
    Records stop (left + 1) (room + 1) bs 0
  | next {left room shown : ℕ} {bs rest : Bytes} (h : bs ≠ [])
      (record : Record stop bs (some rest)) (records : Records stop left room rest shown) :
    Records stop (left + 1) (room + 1) bs (shown + 1)

/-- The number at byte 8 of a batch: how long it is behind its first 12 bytes. -/
def batchLength (bs : Bytes) : ℤ :=
  intOfBe (slice bs 8 4)

/-- The number at byte 57 of a batch. -/
def recordCount (bs : Bytes) : ℕ :=
  (intOfBe (slice bs 57 4)).toNat

/-- The batches from the place `scan` on, for a view of `room` messages. -/
inductive Batches : ℕ → ℕ → Bytes → Prop
  | over {scan room : ℕ} {bs : Bytes} (h : bs.length < 12 ∨ room = 0) : Batches scan room bs
  | cut {scan room : ℕ} {bs : Bytes} (h : batchLength bs ≤ 0 ∨ bs.length < 12 + batchLength bs) :
    Batches scan room bs
  | headless {scan room : ℕ} {batch rest : Bytes} (hlength : batch.length = 12 + batchLength batch)
      (hpos : 12 < batch.length) (h : batch.length < 61)
      (next : Batches (scan + batch.length) room rest) :
    Batches scan room (batch ++ rest)
  | whole {scan room shown : ℕ} {batch rest : Bytes}
      (hlength : batch.length = 12 + batchLength batch) (h : 61 ≤ batch.length)
      (records : Records (scan + batch.length) (recordCount batch) room (batch.drop 61) shown)
      (next : Batches (scan + batch.length) (room - shown) rest) :
    Batches scan room (batch ++ rest)

end RangeLayout

/-- A view of at most `limit` messages can go through the range. -/
def Showable (seg : Bytes) (limit : ℤ) : Prop :=
  RangeLayout.Batches 0 limit.toNat seg

end StrikeMQ.Interface
