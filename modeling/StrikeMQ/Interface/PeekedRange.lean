import StrikeMQ.Model.MessagePeek

/-!
# A view into a log in exact arithmetic

The loops of `MessagePeek` once more, with sums that do not wrap and lengths that are not cut.
Every check is made twice, as the source computes it and exactly: where it passes in 32 bits and not
in exact arithmetic, there is no outcome. A view stays inside of its range if it reads and copies
nothing outside of it and makes no such check, that is if it has a result and so have these loops.
-/

set_option autoImplicit false

namespace StrikeMQ.Interface

open StrikeMQ.Lib StrikeMQ.Model StrikeMQ.Model.MessagePeek

namespace ExactPeek

/-- A check that passes as it is computed has to pass exactly. -/
def passes (computed exact : Prop) [Decidable computed] [Decidable exact] : Option Bool :=
  if computed then (if exact then some true else none) else some false

/-- The byte of the attributes, if something follows it. -/
def nextByte (stop : ℕ) : RecordM Unit := fun rpos => do
  if ← passes (toUInt32 (rpos + 1 : ℕ) < stop) (rpos + 1 < stop) then return ((), rpos + 1)
  else failure

def readField (seg : Bytes) (stop : ℕ) (length : ℤ) : RecordM Bytes := fun rpos =>
  if length > 0 then do
    if ← passes (toUInt32 (rpos + toUInt32 length : ℕ) ≤ stop) (rpos + length.toNat ≤ stop) then
      let bytes ← load seg rpos length.toNat
      return (bytes, rpos + length.toNat)
    else failure
  else return ([], rpos)

def peekRecord (seg : Bytes) (stop : ℕ) (batchBase firstTimestamp : ℤ) :
    RecordM PeekedMessage := do
  let start ← get
  let _ ← readVarint seg stop
  breakAt stop
  nextByte stop
  let timestampDelta ← readVarint seg stop
  let offsetDelta ← readVarint seg stop
  let keyLength ← readVarint seg stop
  let keyStr ← readField seg stop keyLength
  let valueLength ← readVarint seg stop
  let valueStr ← readField seg stop valueLength
  let _ ← readVarint seg stop
  return {
    start := start
    offset := toInt64 (batchBase + offsetDelta)
    timestamp := toInt64 (firstTimestamp + timestampDelta)
    keyStr := keyStr
    valueStr := valueStr }

def peekRecords (seg : Bytes) (stop : ℕ) (batchBase firstTimestamp limit : ℤ) :
    ℕ → ℕ → ℕ → Option (List PeekedMessage)
  | 0, _, _ => some []
  | left + 1, count, rpos =>
    if count < limit ∧ rpos < stop then do
      match ← ((peekRecord seg stop batchBase firstTimestamp).run rpos).run with
      | none => return []
      | some (message, rpos) =>
        let messages ←
          peekRecords seg stop batchBase firstTimestamp limit left (count + 1) rpos
        return message :: messages
    else some []

def peekBatch (seg : Bytes) (scan stop : ℕ) (batchBase limit : ℤ) (count : ℕ) :
    Option (List PeekedMessage) := do
  let recordCount := intOfBe (← load seg (scan + 57) 4)
  let firstTimestamp := intOfBe (← load seg (scan + 25) 8)
  peekRecords seg stop batchBase firstTimestamp limit recordCount.toNat count (scan + 61)

def peekBatches (seg : Bytes) (limit : ℤ) : ℕ → ℕ → ℕ → Option (List PeekedMessage)
  | 0, _, _ => some []
  | fuel + 1, scan, count => do
    if (← passes (toUInt32 (scan + 12 : ℕ) ≤ seg.length) (scan + 12 ≤ seg.length)) ∧
        count < limit then
      let batchBase := intOfBe (← load seg scan 8)
      let batchLen := intOfBe (← load seg (scan + 8) 4)
      let total := 12 + batchLen.toNat
      if batchLen ≤ 0 then return []
      else if ← passes (toUInt32 (scan + total : ℕ) ≤ seg.length) (scan + total ≤ seg.length) then
        if total < 61 then peekBatches seg limit fuel (scan + total) count
        else
          let messages ← peekBatch seg scan (scan + total) batchBase limit count
          let more ← peekBatches seg limit fuel (scan + total) (count + messages.length)
          return messages ++ more
      else return []
    else some []

end ExactPeek

/-- Every byte that the view reads, and every key and value that it copies, lies in the range, and
no check passes by a sum that wraps or a length that is cut. -/
def StaysInside (seg : Bytes) (limit : ℤ) : Prop :=
  ∃ messages, peekBatches seg limit seg.length 0 0 = some messages ∧
    ExactPeek.peekBatches seg limit seg.length 0 0 = some messages

end StrikeMQ.Interface
