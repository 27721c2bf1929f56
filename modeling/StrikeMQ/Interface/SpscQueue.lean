import StrikeMQ.Model.SpscSteps

/-!
# What the ring between two threads promises

A lossless bounded queue: what the consumer has received is the beginning of what was pushed, a
slot is written only when nothing unread is in it and read only when something is, and a call
fails only at a moment when the queue leaves it no choice.
-/

set_option autoImplicit false

namespace StrikeMQ.Interface

open StrikeMQ.Lib StrikeMQ.Model

namespace SpscState

variable {α : Type} {capacity : ℕ}

/-- The slot that the producer's next access writes. -/
def writes (s : SpscState α capacity) : Option ℕ :=
  match s.producer with
  | .writeSlot _ head => some (head &&& SpscRingBuffer.kMask capacity)
  | _ => none

/-- The slot that the consumer's next access reads. -/
def reads (s : SpscState α capacity) : Option ℕ :=
  match s.consumer with
  | .popReadSlot tail => some (tail &&& SpscRingBuffer.kMask capacity)
  | .batchReadSlot tail _ output =>
    some (toUInt64 (tail + output.length) &&& SpscRingBuffer.kMask capacity)
  | _ => none

/-- The number of items in the buffer. -/
def size (s : SpscState α capacity) : ℕ :=
  s.pushed.length - s.received.length

/-- The producer's next access ends its call, which returns false. -/
def PushFails (s : SpscState α capacity) : Prop :=
  ∃ s', s.produce = some s' ∧ s'.producer = .idle (some false)

/-- The consumer is in a call of `try_pop`. -/
def InPop (s : SpscState α capacity) : Prop :=
  match s.consumer with
  | .popLoadTail | .popLoadHead _ | .popReadSlot _ | .popStoreTail _ _ => True
  | _ => False

/-- The consumer's next access ends its call of `try_pop` without an item. -/
def PopFails (moved : α → α) (s : SpscState α capacity) : Prop :=
  InPop s ∧ ∃ s', s.consume moved = some s' ∧ s'.consumer = .idle []

/-- The items that a call of `try_pop` or `try_pop_batch` returns with this step. -/
def popped (s s' : SpscState α capacity) : List α :=
  match s.consumer, s'.consumer with
  | .idle _, _ => []
  | _, .idle result => result
  | _, _ => []

/-- The item of the call of `try_push` that the producer is in. -/
def pushing (s : SpscState α capacity) : List α :=
  match s.producer with
  | .idle _ => []
  | .loadHead item | .loadTail item _ | .writeSlot item _ | .storeHead item _ => [item]

/-- The item of a call of `try_push` that returns true with this step. -/
def accepted (s s' : SpscState α capacity) : List α :=
  match s'.producer with
  | .idle (some true) => pushing s
  | _ => []

end SpscState

/-- What holds at every moment. -/
structure LosslessQueue {α : Type} {capacity : ℕ} (moved : α → α) (s : SpscState α capacity) :
    Prop where
  fifo : s.received <+: s.pushed
  bounded : SpscState.size s ≤ capacity
  overwrites_nothing : ∀ slot, SpscState.writes s = some slot → slot ∉ s.unread
  reads_written : ∀ slot, SpscState.reads s = some slot → slot ∈ s.unread
  push_fails_full : SpscState.PushFails s → SpscState.size s = capacity
  pop_fails_empty : SpscState.PopFails moved s → SpscState.size s = 0

end StrikeMQ.Interface
